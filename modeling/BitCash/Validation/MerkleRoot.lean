import BitCash.Validation.CheckBlock

/-!
# The merkle root, as it is computed

`MerkleComputation` keeps the finished subtrees in an array `inner` of 32 values and says with the bits of a 32-bit
`count` which of them are in use.
-/

set_option linter.unusedSectionVars false

namespace BitCash
open Function BitVec Merkle Option List

variable {α : Type} [DecidableEq α] [Inhabited α] (f : α → α → α) {inner : Nat → α} {count : BitVec 32}
  {level : Nat}

def bitClear (count : BitVec 32) (level : Nat) : Bool := count &&& (1#32 <<< level) == 0#32

/-- the loop over the lower bits of the new `count`; the first number is how many levels are left -/
def climb (count : BitVec 32) (inner : Nat → α) : Nat → Nat → α → Bool → Option (Nat × α × Bool)
  | 0, _, _, _ => none
  | d + 1, level, h, mutated =>
    if bitClear count level then
      climb count inner d (level + 1) (f (inner level) h) (mutated || decide (inner level = h))
    else some (level, h, mutated)

/-- the variables of the first loop -/
structure MerkleState (α : Type) where
  count : BitVec 32
  inner : Nat → α
  mutated : Bool

def addLeaf (s : MerkleState α) (h : α) : Option (MerkleState α) := do
  let (level, h, mutated) ← climb f (s.count + 1#32) s.inner 32 0 h s.mutated
  return ⟨s.count + 1#32, Function.update s.inner level h, mutated⟩

def lowestLevel (count : BitVec 32) : Nat → Nat → Option Nat
  | 0, _ => none
  | d + 1, level => if bitClear count level then lowestLevel count d (level + 1) else some level

def propagate (count : BitVec 32) (inner : Nat → α) : Nat → Nat → α → Option (Nat × α)
  | 0, _, _ => none
  | d + 1, level, h =>
    if bitClear count level then propagate count inner d (level + 1) (f (inner level) h)
    else some (level, h)

def sweepUp (inner : Nat → α) : Nat → BitVec 32 → Nat → α → Option α
  | 0, _, _, _ => none
  | d + 1, count, level, h =>
    if count = 1#32 <<< level then some h
    else do
      let next := count + 1#32 <<< level
      let (top, h') ← propagate f next inner (31 - level) (level + 1) (f h h)
      sweepUp inner d next top h'

def merkleComputation (leaves : List α) : Option (α × Bool) :=
  if leaves.length = 0 then some (default, false)
  else do
    let s ← leaves.foldlM (addLeaf f) ⟨0#32, fun _ => default, false⟩
    let level ← lowestLevel s.count 32 0
    let root ← sweepUp f s.inner 32 s.count level (s.inner level)
    return (root, s.mutated)

def computeMerkleRoot (leaves : List α) : Option (α × Bool) := merkleComputation f leaves

/-! ## bits of the count -/

theorem bitClear_iff {n : Nat} (h : count.toNat / 2 ^ level = n)
    (hl : level < 32) : bitClear count level ↔ n % 2 = 0 := by
  have hbit : count.getLsbD level = decide (n % 2 = 1) := by
    rw [getLsbD, Nat.testBit_eq_decide_div_mod_eq, h]
  have hpow : twoPow 32 level ≠ 0#32 := by
    intro h0
    have hn := congrArg BitVec.toNat h0
    rw [toNat_twoPow_of_lt hl] at hn
    exact absurd hn (by simp)
  show (count &&& twoPow 32 level == 0#32) = true ↔ n % 2 = 0
  rw [and_twoPow, hbit, beq_iff_eq]
  by_cases hn : n % 2 = 1
  · simp [hn, hpow]
  · simp [hn]
    omega

theorem level_lt {n : Nat} (h : count.toNat / 2 ^ level = n + 1) : level < 32 := by
  by_contra hl
  have hpow : 2 ^ 32 ≤ 2 ^ level := Nat.pow_le_pow_right (by omega) (by omega)
  rw [Nat.div_eq_of_lt (by have := count.isLt; omega)] at h
  omega

theorem div_pow_succ (m level : Nat) : m / 2 ^ (level + 1) = m / 2 ^ level / 2 := by
  rw [Nat.pow_succ, Nat.div_div_eq_div_mul]

/-! ## what the array stands for -/

def Holds (inner : Nat → α) : Nat → Nat → List (Option α) → Prop
  | _, n, [] => n = 0
  | level, n, x :: st =>
    (x = if n % 2 = 1 then some (inner level) else none) ∧ Holds inner (level + 1) (n / 2) st

theorem Holds.update {k : Nat} (x : α) :
    ∀ {st : List (Option α)} {level n : Nat}, Holds inner level n st → k < level → Holds (update inner k x) level n st
  | [], _, _, h, _ => h
  | _ :: _, level, n, h, hk => by
    refine ⟨?_, Holds.update x h.2 (by omega)⟩
    rw [update_of_ne (by omega)]
    exact h.1

theorem Holds.all_none : ∀ {st : List (Option α)} {level n : Nat},
    Holds inner level n st → (st.all isNone ↔ n = 0)
  | [], _, n, h => by
    have h0 : n = 0 := h
    simp [h0]
  | x :: st, level, n, h => by
    have ih := Holds.all_none h.2
    rw [all_cons, Bool.and_eq_true, ih, h.1]
    by_cases hn : n % 2 = 1
    · simp only [if_pos hn, isNone_some, Bool.false_eq_true, false_and, false_iff]
      omega
    · simp only [if_neg hn, isNone_none, true_and]
      omega

/-! ## one leaf -/

theorem climb_eq : ∀ (d : Nat) {st : List (Option α)}
    {level n : Nat} (h : α) (mutated : Bool), level + d = 32 → Holds inner level n st →
    count.toNat / 2 ^ level = n + 1 →
    ∃ k x, climb f count inner d level h mutated = some (k, x, mutated || (push f st h).2) ∧
      level ≤ k ∧ Holds (update inner k x) level (n + 1) (push f st h).1
  | 0, _, level, n, _, _, hd, _, hc => by
    have := level_lt hc
    omega
  | d + 1, st, level, n, h, mutated, hd, hst, hc => by
    have hclear := bitClear_iff hc (level_lt hc)
    unfold climb
    by_cases hn : n % 2 = 1
    · -- the entry is in use: hash, and go up
      rw [if_pos (hclear.2 (by omega))]
      cases st with
      | nil =>
        have h0 : n = 0 := hst
        omega
      | cons y st =>
        obtain ⟨hy, hst⟩ := hst
        rw [if_pos hn] at hy
        subst hy
        have hup : count.toNat / 2 ^ (level + 1) = n / 2 + 1 := by
          rw [div_pow_succ, hc]
          omega
        obtain ⟨k, x, hk, hle, hnew⟩ := climb_eq d (f (inner level) h)
          (mutated || decide (inner level = h)) (by omega) hst hup
        refine ⟨k, x, ?_, by omega, ?_, ?_⟩
        · rw [hk, Bool.or_assoc]
          rfl
        · rw [if_neg (by omega)]
        · rw [show (n + 1) / 2 = n / 2 + 1 by omega]
          exact hnew
    · -- the entry is free: the value is stored in it
      rw [if_neg (by rw [hclear]; omega)]
      refine ⟨level, h, ?_, le_refl _, ?_⟩
      · cases st with
        | nil => simp [push]
        | cons y st => simp [hst.1, hn, push]
      · have hhead : some h = if (n + 1) % 2 = 1 then some (update inner level h level) else none := by
          rw [if_pos (by omega), update_self]
        cases st with
        | nil =>
          have h0 : n = 0 := hst
          exact ⟨hhead, show (n + 1) / 2 = 0 by omega⟩
        | cons y st =>
          obtain ⟨hy, hst⟩ := hst
          rw [if_neg hn] at hy
          subst hy
          refine ⟨hhead, ?_⟩
          rw [show (n + 1) / 2 = n / 2 by omega]
          exact hst.update h (by omega)

theorem addLeaves_eq : ∀ (leaves : List α) {s : MerkleState α} {st : List (Option α)},
    Holds s.inner 0 s.count.toNat st → s.count.toNat + leaves.length < 2 ^ 32 →
    ∃ t, leaves.foldlM (addLeaf f) s = some t ∧ t.count.toNat = s.count.toNat + leaves.length ∧
      ∃ st', leaves.foldl (fun s h => ((push f s.1 h).1, s.2 || (push f s.1 h).2))
        (st, s.mutated) = (st', t.mutated) ∧ Holds t.inner 0 t.count.toNat st'
  | [], s, st, hst, _ => ⟨s, rfl, rfl, st, rfl, hst⟩
  | h :: leaves, s, st, hst, hlen => by
    rw [length_cons] at hlen ⊢
    have hone : (s.count + 1#32).toNat = s.count.toNat + 1 := by
      rw [toNat_add, toNat_ofNat]
      omega
    have hdiv : (s.count + 1#32).toNat / 2 ^ 0 = s.count.toNat + 1 := by
      rw [hone, Nat.pow_zero, Nat.div_one]
    obtain ⟨k, x, hk, -, hnew⟩ := climb_eq f 32 h s.mutated (by omega) hst hdiv
    rw [← hone] at hnew
    obtain ⟨t, ht, hcount, st', hfold, hholds⟩ := addLeaves_eq leaves
      (s := ⟨s.count + 1#32, update s.inner k x, s.mutated || (push f st h).2⟩) hnew
      (by show (s.count + 1#32).toNat + _ < _; omega)
    refine ⟨t, ?_, ?_, st', hfold, hholds⟩
    · have hadd : addLeaf f s h = some ⟨s.count + 1#32, update s.inner k x, s.mutated || (push f st h).2⟩ := by
        unfold addLeaf
        rw [hk]
        rfl
      rw [foldlM_cons, hadd]
      exact ht
    · rw [hcount, hone]
      omega

/-! ## the sweep -/

theorem lowestLevel_eq : ∀ (d : Nat) {st : List (Option α)}
    {level n : Nat}, level + d = 32 → Holds inner level (n + 1) st → count.toNat = 2 ^ level * (n + 1) →
    ∃ k m st', lowestLevel count d level = some k ∧ count.toNat = 2 ^ k * (2 * m + 1) ∧
      Holds inner (k + 1) m st' ∧ finish f st = sweep f false (inner k) st'
  | d, [], _, _, _, hst, _ => nomatch hst
  | 0, _ :: _, level, n, hd, _, hc => by
    have hdiv : count.toNat / 2 ^ level = n + 1 := by
      rw [hc, Nat.mul_div_cancel_left _ (by positivity)]
    have := level_lt hdiv
    omega
  | d + 1, y :: st, level, n, hd, hst, hc => by
    have hdiv : count.toNat / 2 ^ level = n + 1 := by
      rw [hc, Nat.mul_div_cancel_left _ (by positivity)]
    have hclear := bitClear_iff hdiv (level_lt hdiv)
    obtain ⟨hy, hst⟩ := hst
    unfold lowestLevel
    by_cases hn : (n + 1) % 2 = 1
    · rw [if_neg (by rw [hclear]; omega)]
      rw [if_pos hn] at hy
      subst hy
      refine ⟨level, (n + 1) / 2, st, rfl, ?_, hst, rfl⟩
      rw [hc, show 2 * ((n + 1) / 2) + 1 = n + 1 by omega]
    · rw [if_pos (hclear.2 (by omega))]
      rw [if_neg hn] at hy
      subst hy
      obtain ⟨k, hk⟩ := Nat.exists_eq_succ_of_ne_zero (n := (n + 1) / 2) (by omega)
      rw [hk] at hst
      have hup : count.toNat = 2 ^ (level + 1) * (k + 1) := by
        rw [hc, Nat.pow_succ, Nat.mul_assoc, show 2 * (k + 1) = n + 1 by omega]
      have hrec := lowestLevel_eq d (by omega) hst hup
      exact hrec

theorem propagate_eq : ∀ (d : Nat) {st : List (Option α)}
    {level n : Nat} {h : α}, level + d = 32 → Holds inner level n st → count.toNat = 2 ^ level * (n + 1) →
    ∃ k x m st', propagate f count inner d level h = some (k, x) ∧ level ≤ k ∧
      count.toNat = 2 ^ k * (2 * m + 1) ∧ Holds inner (k + 1) m st' ∧
      sweep f true h st = sweep f false x st'
  | 0, _, level, n, _, hd, _, hc => by
    have hdiv : count.toNat / 2 ^ level = n + 1 := by
      rw [hc, Nat.mul_div_cancel_left _ (by positivity)]
    have := level_lt hdiv
    omega
  | d + 1, st, level, n, h, hd, hst, hc => by
    have hdiv : count.toNat / 2 ^ level = n + 1 := by
      rw [hc, Nat.mul_div_cancel_left _ (by positivity)]
    have hclear := bitClear_iff hdiv (level_lt hdiv)
    unfold propagate
    by_cases hn : n % 2 = 1
    · rw [if_pos (hclear.2 (by omega))]
      cases st with
      | nil =>
        have h0 : n = 0 := hst
        omega
      | cons y st =>
        obtain ⟨hy, hst⟩ := hst
        rw [if_pos hn] at hy
        subst hy
        obtain ⟨k, x, m, st', hk, hle, hrest⟩ := propagate_eq d (h := f (inner level) h) (by omega) hst
          (by rw [hc, Nat.pow_succ, Nat.mul_assoc, show 2 * (n / 2 + 1) = n + 1 by omega])
        exact ⟨k, x, m, st', hk, by omega, hrest⟩
    · -- the level is free, and the value stays there
      rw [if_neg (by rw [hclear]; omega)]
      cases st with
      | nil =>
        have h0 : n = 0 := hst
        exact ⟨level, h, 0, [], rfl, le_refl _, by rw [hc, h0], rfl, rfl⟩
      | cons y st =>
        obtain ⟨hy, hst⟩ := hst
        rw [if_neg hn] at hy
        subst hy
        refine ⟨level, h, n / 2, st, rfl, le_refl _, ?_, hst, rfl⟩
        rw [hc, show 2 * (n / 2) + 1 = n + 1 by omega]

theorem next_count_le {n : Nat} (hn : n ≠ 0) (h : 2 ^ level * (2 * n + 1) ≤ 2 ^ 31) :
    2 ^ (level + 1) * (n + 1) ≤ 2 ^ 31 := by
  have hlevel : level < 31 := by
    by_contra hl
    have hpow : 2 ^ 31 ≤ 2 ^ level := Nat.pow_le_pow_right (by omega) (by omega)
    have hthree : 2 ^ level * 3 ≤ 2 ^ level * (2 * n + 1) := Nat.mul_le_mul_left _ (by omega)
    omega
  have hsplit : 2 ^ 31 = 2 ^ level * (2 * 2 ^ (30 - level)) := by
    rw [← Nat.pow_succ', ← Nat.pow_add]
    congr 1
    omega
  rw [hsplit] at h ⊢
  have hle := Nat.le_of_mul_le_mul_left h (by positivity)
  rw [Nat.pow_succ, Nat.mul_assoc]
  exact Nat.mul_le_mul_left _ (by omega)

theorem sweepUp_eq : ∀ (d : Nat) {st : List (Option α)} {count : BitVec 32}
    {level n : Nat} {h : α}, 32 ≤ level + d → count.toNat ≤ 2 ^ 31 →
    count.toNat = 2 ^ level * (2 * n + 1) → Holds inner (level + 1) n st →
    sweepUp f inner d count level h = some (sweep f false h st)
  | d, st, count, level, n, h, hd, hmax, hc, hst => by
    have hdiv : count.toNat / 2 ^ level = 2 * n + 1 := by
      rw [hc, Nat.mul_div_cancel_left _ (by positivity)]
    have hlevel := level_lt hdiv
    have hpow : (1#32 <<< level).toNat = 2 ^ level := toNat_twoPow_of_lt hlevel
    obtain ⟨d, rfl⟩ : ∃ e, d = e + 1 := ⟨d - 1, by omega⟩
    unfold sweepUp
    by_cases hn : n = 0
    · -- one subtree is left
      have hone : count = 1#32 <<< level := eq_of_toNat_eq (by rw [hc, hpow, hn]; omega)
      rw [if_pos hone, sweep_false_of_all_none f (hst.all_none.2 hn)]
    · have hall : st.all isNone = false := by
        rw [← Bool.not_eq_true, hst.all_none]
        exact hn
      have hle := next_count_le hn (hc ▸ hmax)
      have hsum : 2 ^ level * (2 * n + 1) + 2 ^ level = 2 ^ (level + 1) * (n + 1) := by
        rw [← Nat.mul_succ, Nat.pow_succ, Nat.mul_assoc]
        rfl
      have hnext : (count + 1#32 <<< level).toNat = 2 ^ (level + 1) * (n + 1) := by
        rw [toNat_add, hpow, hc, hsum]
        omega
      have hne : count ≠ 1#32 <<< level := by
        intro he
        rw [he, hpow, Nat.div_self (by positivity)] at hdiv
        omega
      obtain ⟨k, x, m, st', hk, hlk, hcount, hst', hsweep⟩ :=
        propagate_eq f (31 - level) (h := f h h) (by omega) hst hnext
      rw [if_neg hne, sweep_false f hall, hsweep]
      show (propagate f (count + 1#32 <<< level) inner (31 - level) (level + 1) (f h h)).bind _ = _
      rw [hk]
      exact sweepUp_eq d (by omega) (hnext ▸ hle) hcount hst'

/-! ## the root -/

theorem computeMerkleRoot_eq {leaves : List α} (hlen : leaves.length < 2 ^ 31) :
    computeMerkleRoot f leaves = some (computeRoot f leaves) := by
  unfold computeMerkleRoot merkleComputation
  by_cases h0 : leaves.length = 0
  · rw [if_pos h0, length_eq_zero_iff.1 h0]
    rfl
  · rw [if_neg h0]
    have hstart : Holds (fun _ => default) 0 (0#32).toNat ([] : List (Option α)) := rfl
    obtain ⟨t, ht, hcount, st, hfold, hst⟩ := addLeaves_eq f leaves
      (s := ⟨0#32, fun _ => default, false⟩) hstart (by show 0 + _ < _; omega)
    replace hcount : t.count.toNat = leaves.length := by
      rw [hcount]
      exact Nat.zero_add _
    obtain ⟨n, hn⟩ := Nat.exists_eq_succ_of_ne_zero h0
    rw [hcount, hn] at hst
    have hlow : t.count.toNat = 2 ^ 0 * (n + 1) := by
      rw [hcount, hn]
      omega
    obtain ⟨k, m, st', hk, hc, hst', hfin⟩ := lowestLevel_eq f 32 (by omega) hst hlow
    have hsweep := sweepUp_eq f 32 (h := t.inner k) (by omega) (by omega) hc hst'
    rw [ht]
    show (lowestLevel t.count 32 0).bind _ = _
    rw [hk]
    show (sweepUp f t.inner 32 t.count k (t.inner k)).bind _ = _
    rw [hsweep, ← hfin]
    unfold computeRoot process
    rw [hfold]
    rfl

/-- **malleability is always detected**: for an injective hash of pairs that gives no leaf, two non-empty
lists with one root of which neither is reported as mutated are the same list -/
theorem merkleRoot_determines_leaves (hf : Merkle.PairInj f) {l m : List α}
    (hl : ∀ x ∈ l, ∀ a b, x ≠ f a b) (hm : ∀ x ∈ m, ∀ a b, x ≠ f a b) (hl0 : l ≠ []) (hm0 : m ≠ [])
    (hllen : l.length < 2 ^ 31) (hmlen : m.length < 2 ^ 31) :
    ∃ r s, computeMerkleRoot f l = some r ∧ computeMerkleRoot f m = some s ∧
      (r.1 = s.1 → r.2 = false → s.2 = false → l = m) :=
  ⟨_, _, computeMerkleRoot_eq f hllen, computeMerkleRoot_eq f hmlen, fun hroot hr hs =>
    Merkle.computeRoot_inj hf hl0 hm0 hl hm hr hs hroot⟩

def symLeaf (n : UInt8) : Digest := symEnv.hashBytes [n]

theorem symLeaf_ne_pair (n : UInt8) (a b : Digest) : symLeaf n ≠ symEnv.hashPair a b :=
  fun h => absurd (Digest.tagged_inj h).1 (by decide)

/-- three leaves, and the same with the last one written twice -/
theorem merkleRoot_determines_three :
    ∃ r s, computeMerkleRoot symEnv.hashPair ([1, 2, 3].map symLeaf) = some r ∧
      computeMerkleRoot symEnv.hashPair ([1, 2, 3, 3].map symLeaf) = some s ∧
      (r.1 = s.1 → r.2 = false → s.2 = false → [1, 2, 3].map symLeaf = [1, 2, 3, 3].map symLeaf) :=
  merkleRoot_determines_leaves symEnv.hashPair symEnv_injective.pair
    (by simp [symLeaf_ne_pair]) (by simp [symLeaf_ne_pair]) (by simp) (by simp) (by simp)
    (by simp)

-- the two lists have one root, and the second one is reported
example : (computeMerkleRoot symEnv.hashPair ([1, 2, 3].map symLeaf)).map (·.1) =
      (computeMerkleRoot symEnv.hashPair ([1, 2, 3, 3].map symLeaf)).map (·.1) ∧
    (computeMerkleRoot symEnv.hashPair ([1, 2, 3, 3].map symLeaf)).map (·.2) = some true := by
  decide

end BitCash
