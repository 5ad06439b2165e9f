import Mathlib.Tactic.NormNum

/-!
# Signed 64-bit arithmetic

Division is `Int.tdiv`: it truncates toward zero.
-/

variable {x : Int}

namespace Machine

/-- the value is one of a signed 64-bit word -/
def fits64 (x : Int) : Bool := decide (-9223372036854775808 ≤ x) && decide (x ≤ 9223372036854775807)

/-- storing a wider integer in a signed 64-bit word -/
def narrow64 (x : Int) : Int := Int.bmod x 18446744073709551616

theorem fits64_iff : fits64 x ↔ -9223372036854775808 ≤ x ∧ x ≤ 9223372036854775807 := by
  simp [fits64]

theorem narrow64_fits (x : Int) : fits64 (narrow64 x) := by
  have hlo := @Int.le_bmod x 18446744073709551616 (by norm_num)
  have hhi := @Int.bmod_lt x 18446744073709551616 (by norm_num)
  rw [fits64_iff, narrow64]
  omega

theorem narrow64_of_fits (h : fits64 x) : narrow64 x = x := by
  rw [fits64_iff] at h
  exact Int.bmod_eq_of_le (by omega) (by omega)

theorem narrow64_eq_iff : narrow64 x = x ↔ fits64 x := by
  refine ⟨fun h => ?_, narrow64_of_fits⟩
  rw [← h]
  exact narrow64_fits x

theorem toInt_ofInt_of_fits (h : fits64 x) : (BitVec.ofInt 64 x).toInt = x := by
  rw [fits64_iff] at h
  rw [BitVec.toInt_ofInt]
  exact Int.bmod_eq_of_le (by omega) (by omega)

theorem narrow64_emod (x : Int) :
    narrow64 x = x % 18446744073709551616 ∧ x % 18446744073709551616 < 9223372036854775808 ∨
      narrow64 x = x % 18446744073709551616 - 18446744073709551616 ∧
        9223372036854775808 ≤ x % 18446744073709551616 := by
  unfold narrow64
  rw [Int.bmod_def]
  split <;> omega

end Machine
