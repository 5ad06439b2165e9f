import BitCash.Consensus.Symbolic

/-!
# The price of three sources

`GetPriceinCurrency` takes the middle of the two closest of three prices.
-/

set_option linter.unusedSectionVars false

namespace BitCash
open Checks Machine CPriceInfo

variable {H : Type} [Inhabited H] [DecidableEq H]

theorem tdiv_two_cases (a b : Int) :
    (b ≤ a ∧ (a - b).tdiv 2 = (a - b) / 2) ∨ (a ≤ b ∧ (a - b).tdiv 2 = -((b - a) / 2)) := by
  rcases le_total b a with h | h
  · exact .inl ⟨h, Int.tdiv_eq_ediv_of_nonneg (by omega)⟩
  · refine .inr ⟨h, ?_⟩
    rw [← Int.neg_sub b a, Int.neg_tdiv, Int.tdiv_eq_ediv_of_nonneg (by omega)]

theorem midpoint_near (a b : Int) : min a b ≤ (a - b).tdiv 2 + b ∧ (a - b).tdiv 2 + b ≤ max a b ∧
      |(a - b).tdiv 2 + b - a| ≤ (|a - b| + 1) / 2 ∧ |(a - b).tdiv 2 + b - b| ≤ (|a - b| + 1) / 2 := by
  rcases tdiv_two_cases a b with ⟨h, ht⟩ | ⟨h, ht⟩
  · rw [ht, abs_of_nonneg (show 0 ≤ a - b by omega), min_eq_right h, max_eq_left h, abs_le, abs_le]
    omega
  · rw [ht, abs_of_nonpos (show a - b ≤ 0 by omega), min_eq_left h, max_eq_right h, abs_le, abs_le]
    omega

def TwoWithin (L U p1 p2 p3 : Int) : Prop :=
  (L ≤ p1 ∧ p1 ≤ U ∧ L ≤ p2 ∧ p2 ≤ U) ∨ (L ≤ p2 ∧ p2 ≤ U ∧ L ≤ p3 ∧ p3 ≤ U) ∨
    (L ≤ p1 ∧ p1 ≤ U ∧ L ≤ p3 ∧ p3 ≤ U)

theorem closestPair_cases (p1 p2 p3 : Int) :
    ∃ a b, closestPair p1 p2 p3 |p1 - p2| |p2 - p3| |p1 - p3| = (a - b).tdiv 2 + b ∧
      |a - b| ≤ |p1 - p2| ∧ |a - b| ≤ |p2 - p3| ∧ |a - b| ≤ |p1 - p3| ∧
      (a = p1 ∧ b = p2 ∨ a = p2 ∧ b = p3 ∨ a = p1 ∧ b = p3) := by
  unfold closestPair
  split
  · next h => exact ⟨p1, p2, rfl, le_refl _, h.1, h.2, .inl ⟨rfl, rfl⟩⟩
  · split
    · next h => exact ⟨p2, p3, rfl, h.1, le_refl _, h.2, .inr (.inl ⟨rfl, rfl⟩)⟩
    · next h1 h2 =>
      refine ⟨p1, p3, rfl, ?_, ?_, le_refl _, .inr (.inr ⟨rfl, rfl⟩)⟩
      · omega
      · omega

theorem closestPair_near {L U p1 p2 p3 : Int} (h : TwoWithin L U p1 p2 p3) :
    L - (U - L + 1) / 2 ≤ closestPair p1 p2 p3 |p1 - p2| |p2 - p3| |p1 - p3| ∧
      closestPair p1 p2 p3 |p1 - p2| |p2 - p3| |p1 - p3| ≤ U + (U - L + 1) / 2 := by
  obtain ⟨a, b, hx, h12, h23, h13, hab⟩ := closestPair_cases p1 p2 p3
  obtain ⟨-, -, ha, hb⟩ := midpoint_near a b
  rw [hx]
  -- the two in the interval are at most its length apart, so the closest two are
  have hd : |a - b| ≤ U - L := by
    rcases h with ⟨_, _, _, _⟩ | ⟨_, _, _, _⟩ | ⟨_, _, _, _⟩
    · exact h12.trans (abs_le.2 ⟨by omega, by omega⟩)
    · exact h23.trans (abs_le.2 ⟨by omega, by omega⟩)
    · exact h13.trans (abs_le.2 ⟨by omega, by omega⟩)
  rw [abs_le] at ha hb
  -- and one of the closest two is in the interval
  have hin : (L ≤ a ∧ a ≤ U) ∨ (L ≤ b ∧ b ≤ U) := by
    unfold TwoWithin at h
    omega
  omega

theorem closestPair_between (p1 p2 p3 : Int) :
    min p1 (min p2 p3) ≤ closestPair p1 p2 p3 |p1 - p2| |p2 - p3| |p1 - p3| ∧
      closestPair p1 p2 p3 |p1 - p2| |p2 - p3| |p1 - p3| ≤ max p1 (max p2 p3) := by
  obtain ⟨a, b, hx, -, -, -, hab⟩ := closestPair_cases p1 p2 p3
  obtain ⟨hmin, hmax, -, -⟩ := midpoint_near a b
  rw [hx]
  omega

theorem getPriceinCurrency_eq_closestPair {h : CBlockHeader H} {currency : UInt8} {p1 p2 p3 : Int}
    (h1 : h.nPriceInfo.prices (priceIndex h.nPriceInfo.priceCount currency) = .ok p1)
    (h2 : h.nPriceInfo2.prices (priceIndex h.nPriceInfo.priceCount currency) = .ok p2)
    (h3 : h.nPriceInfo3.prices (priceIndex h.nPriceInfo.priceCount currency) = .ok p3)
    (hp1 : 0 < p1) (hp2 : 0 < p2) (hp3 : 0 < p3) :
    h.getPriceinCurrency currency = .ok (closestPair p1 p2 p3 |p1 - p2| |p2 - p3| |p1 - p3|) := by
  have f1 := prices_fits h1
  have f2 := prices_fits h2
  have f3 := prices_fits h3
  simp only [CBlockHeader.getPriceinCurrency, h1, h2, h3, ok_bind, absDiff_of_pos hp1 hp2 f1 f2,
    absDiff_of_pos hp2 hp3 f2 f3, absDiff_of_pos hp1 hp3 f1 f3]
  rfl

/-- **one source cannot move the price far**: three positive prices at an index give a positive price
without overflow, between the smallest and the largest, and near every interval that holds two of
them -/
theorem price_near_interval {h : CBlockHeader H} {currency : UInt8} {p1 p2 p3 : Int}
    (h1 : h.nPriceInfo.prices (priceIndex h.nPriceInfo.priceCount currency) = .ok p1)
    (h2 : h.nPriceInfo2.prices (priceIndex h.nPriceInfo.priceCount currency) = .ok p2)
    (h3 : h.nPriceInfo3.prices (priceIndex h.nPriceInfo.priceCount currency) = .ok p3)
    (hp1 : 0 < p1) (hp2 : 0 < p2) (hp3 : 0 < p3) :
    ∃ x, h.getPriceinCurrency currency = .ok x ∧ fits64 x = true ∧ 0 < x ∧
      min p1 (min p2 p3) ≤ x ∧ x ≤ max p1 (max p2 p3) ∧
      ∀ L U, TwoWithin L U p1 p2 p3 → L - (U - L + 1) / 2 ≤ x ∧ x ≤ U + (U - L + 1) / 2 := by
  have f1 := CPriceInfo.prices_fits h1
  have f2 := CPriceInfo.prices_fits h2
  have f3 := CPriceInfo.prices_fits h3
  obtain ⟨hmin, hmax⟩ := closestPair_between p1 p2 p3
  refine ⟨_, getPriceinCurrency_eq_closestPair h1 h2 h3 hp1 hp2 hp3, ?_, closestPair_pos hp1 hp2 hp3,
    hmin, hmax, fun L U hLU => closestPair_near hLU⟩
  rw [fits64_iff] at f1 f2 f3 ⊢
  omega

def outlierHeader : CBlockHeader Digest :=
  { symHeader default default (pricesAt 500 500 (by decide)) with
    nPriceInfo2 := pricesAt 503 503 (by decide)
    nPriceInfo3 := pricesAt 9223372036854775807 9223372036854775807 (by decide) }

/-- the third source is the largest there is, and the price stays between the other two -/
theorem price_near_outlier : ∃ x, outlierHeader.getPriceinCurrency 1 = .ok x ∧ fits64 x = true ∧ 0 < x ∧
      min 500 (min 503 9223372036854775807) ≤ x ∧ x ≤ max 500 (max 503 9223372036854775807) ∧
      ∀ L U, TwoWithin L U 500 503 9223372036854775807 → L - (U - L + 1) / 2 ≤ x ∧ x ≤ U + (U - L + 1) / 2 :=
  price_near_interval (by decide) (by decide) (by decide) (by decide) (by decide) (by decide)

example : outlierHeader.getPriceinCurrency 1 = .ok 502 := by decide

end BitCash
