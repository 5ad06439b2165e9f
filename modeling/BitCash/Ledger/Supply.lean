import Mathlib.Algebra.BigOperators.Intervals
import Mathlib.Algebra.Order.BigOperators.Group.Finset
import BitCash.Consensus.Symbolic

/-!
# The supply

`GetBlockSubsidy` and `GetBlockSubsidyDevs` halve every `nSubsidyHalvingInterval` blocks, rounding down, and the
first block pays the premine.
-/

namespace BitCash
open Finset Nat

variable {H : Type}

def blockReward (params : Params H) (nHeight : Nat) : Int :=
  getBlockSubsidy params nHeight + getBlockSubsidyDevs params nHeight

def rewardAfter (halvings : Nat) : Int :=
  if 64 ≤ halvings then 0
  else (19350 * MILLICOIN) / 2 ^ halvings + (2150 * MILLICOIN) / 2 ^ halvings

theorem rewardAfter_nonneg (k : Nat) : 0 ≤ rewardAfter k := by
  unfold rewardAfter
  split
  · exact le_refl 0
  · exact add_nonneg (Int.ediv_nonneg (by decide) (by positivity)) (Int.ediv_nonneg (by decide) (by positivity))

theorem sum_range_mul (f : Nat → Int) (m n : Nat) :
    ∑ i ∈ range (n * m), f (i / m) = m * ∑ k ∈ range n, f k := by
  induction n with
  | zero => simp
  | succ n ih =>
    have hlast : ∑ i ∈ range m, f ((n * m + i) / m) = m * f n := by
      rw [sum_congr rfl fun i hi => by
        have hlt := mem_range.1 hi
        rw [Nat.mul_comm, mul_add_div (by omega), div_eq_of_lt hlt, Nat.add_zero]]
      simp
    rw [succ_mul, sum_range_add, ih, hlast, sum_range_succ, mul_add]

theorem sum_rewardAfter (m : Nat) : ∑ k ∈ range (64 + m), rewardAfter k = 42999999980 := by
  have htail : ∑ k ∈ range m, rewardAfter (64 + k) = 0 := sum_eq_zero fun k _ => if_pos (by omega)
  have hhead : ∑ k ∈ range 64, rewardAfter k = 42999999980 := by decide
  rw [sum_range_add, htail, hhead, add_zero]

theorem blockReward_eq {params : Params H} (h : 2 ≤ params.nSubsidyHalvingInterval) (nHeight : Nat) :
    blockReward params nHeight = rewardAfter (nHeight / params.nSubsidyHalvingInterval) +
      if nHeight = 1 then 9700000000 * MILLICOIN else 0 := by
  unfold blockReward getBlockSubsidy getBlockSubsidyDevs rewardAfter
  by_cases h1 : nHeight = 1
  · subst h1
    rw [div_eq_of_lt (by omega)]
    decide
  · simp only [if_neg h1, add_zero]
    split <;> rfl

/-- **the supply is capped**: with the halving interval of the main network, the blocks up to any height
pay at most `MAX_MONEY`, the premine included -/
theorem supply_le_maxMoney {params : Params H} (h : params.nSubsidyHalvingInterval = 2100000) (nHeight : Nat) :
    ∑ i ∈ Finset.range nHeight,
      (getBlockSubsidy params (i + 1) + getBlockSubsidyDevs params (i + 1)) ≤ MAX_MONEY := by
  have heq := @blockReward_eq H params (by omega)
  rw [h] at heq
  -- the premine is paid once
  have hpremine : ∑ i ∈ Finset.range (nHeight + 1), (if i = 1 then 9700000000 * MILLICOIN else 0) ≤
      9700000000 * MILLICOIN := by
    rw [Finset.sum_ite_eq']
    split
    · exact le_refl _
    · decide
  -- the rest is bounded by all halvings
  have hrest : ∑ i ∈ Finset.range (nHeight + 1), rewardAfter (i / 2100000) ≤ 2100000 * 42999999980 := by
    calc ∑ i ∈ Finset.range (nHeight + 1), rewardAfter (i / 2100000)
        ≤ ∑ i ∈ Finset.range ((64 + (nHeight + 1)) * 2100000), rewardAfter (i / 2100000) :=
          Finset.sum_le_sum_of_subset_of_nonneg (Finset.range_mono (by omega)) fun i _ _ => rewardAfter_nonneg _
      _ = 2100000 * 42999999980 := by
          rw [sum_range_mul, sum_rewardAfter]
          rfl
  have hsum : ∑ i ∈ Finset.range (nHeight + 1), blockReward params i =
      ∑ i ∈ Finset.range nHeight, blockReward params (i + 1) + blockReward params 0 :=
    Finset.sum_range_succ' _ _
  have hzero : blockReward params 0 = 21500 * MILLICOIN := by
    rw [heq]
    decide
  rw [Finset.sum_congr rfl fun i _ => heq i, Finset.sum_add_distrib, hzero] at hsum
  show ∑ i ∈ Finset.range nHeight, blockReward params (i + 1) ≤ MAX_MONEY
  have hmax : MAX_MONEY = 100000000000000000 := rfl
  have hmilli : MILLICOIN = 1000000 := rfl
  rw [hmilli] at hpremine hsum
  omega

theorem supply_le_maxMoney_main : (mainParams (0 : Nat)).nSubsidyHalvingInterval = 2100000 ∧
      ∑ i ∈ Finset.range 3, (getBlockSubsidy (mainParams (0 : Nat)) (i + 1) +
        getBlockSubsidyDevs (mainParams (0 : Nat)) (i + 1)) ≤ MAX_MONEY :=
  ⟨rfl, supply_le_maxMoney rfl 3⟩

end BitCash
