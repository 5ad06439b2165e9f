import Mathlib.Algebra.BigOperators.Group.Finset.Basic
import Mathlib.Algebra.BigOperators.Intervals
import Mathlib.Data.Int.Init
import Mathlib.Logic.Function.Basic

/-!
# The block times of the retarget

The loop of `GetNextWorkRequired` that sorts out times which do not match (`pow.cpp`), on an array of any length:
where a time is before the one in front of it, the times between it and the last one that is not later are
overwritten.
-/

namespace BitCash.Retarget
open List Function

/-- `for (e = i + 1; e <= nCountBlocks - 1; e++)` -/
def interpolate (nCountBlocks i : Nat) (times : Nat → Int) : Nat → Int :=
  (List.range' (i + 1) (nCountBlocks - 1 - i)).foldl (fun times e => Function.update times e
    ((times nCountBlocks - times i).tdiv ((nCountBlocks : Int) - i) + times i)) times

/-- `for (i = nCountBlocks - 1; i >= 0; i--)` -/
def searchBack (nCountBlocks : Nat) (times : Nat → Int) : Nat → Nat → Int
  | 0 =>
    if times 0 ≤ times nCountBlocks then interpolate nCountBlocks 0 times
    else (List.range nCountBlocks).foldl (fun times e => Function.update times e (times nCountBlocks)) times
  | i + 1 =>
    if times (i + 1) ≤ times nCountBlocks then interpolate nCountBlocks (i + 1) times
    else searchBack nCountBlocks times i

def sortOut (times : Nat → Int) (nCountBlocks : Nat) : Nat → Int :=
  if 0 < nCountBlocks ∧ times nCountBlocks < times (nCountBlocks - 1) then
    searchBack nCountBlocks times (nCountBlocks - 1)
  else times

def smooth (nPastBlocks : Nat) (times : Nat → Int) : Nat → Int := (List.range nPastBlocks).foldl sortOut times

/-- `lasttime - currenttime` for each `nCountBlocks` from 2 on -/
def gap (nPastBlocks : Nat) (times : Nat → Int) (nCountBlocks : Nat) : Int :=
  times (nPastBlocks - (nCountBlocks - 1)) - times (nPastBlocks - nCountBlocks)

/-! ## one time -/

variable {c i : Nat} {t : Nat → Int}

theorem foldl_update {l : List Nat} {v : (Nat → Int) → Int} {x : Int} (hv : ∀ u, (∀ k ∉ l, u k = t k) → v u = x) :
    l.foldl (fun t e => update t e (v t)) t = fun k => if k ∈ l then x else t k := by
  have h : ∀ m u, m ⊆ l → (∀ k ∉ l, u k = t k) →
      m.foldl (fun t e => update t e (v t)) u = fun k => if k ∈ m then x else u k := by
    intro m
    induction m with
    | nil => exact fun u _ _ => funext fun k => by simp
    | cons e m ih =>
      intro u hm hu
      obtain ⟨he, hm⟩ := cons_subset.1 hm
      have hnext : ∀ k ∉ l, update u e (v u) k = t k := by
        intro k hk
        have hke : k ≠ e := fun hke => hk (hke ▸ he)
        rw [update_of_ne hke, hu k hk]
      rw [foldl_cons, ih _ hm hnext, hv u hu]
      funext k
      by_cases hk : k = e
      · simp [hk]
      · simp [hk]
  exact h l t (List.Subset.refl l) fun _ _ => rfl

theorem interpolate_eq (hi : i < c) : interpolate c i t =
    fun k => if i < k ∧ k < c then (t c - t i).tdiv ((c : Int) - i) + t i else t k := by
  have hrange : ∀ k, k ∈ range' (i + 1) (c - 1 - i) ↔ i < k ∧ k < c := by
    intro k
    rw [mem_range'_1]
    omega
  have hvalue : ∀ u : Nat → Int, (∀ k ∉ range' (i + 1) (c - 1 - i), u k = t k) →
      (u c - u i).tdiv ((c : Int) - i) + u i = (t c - t i).tdiv ((c : Int) - i) + t i := by
    intro u hu
    rw [hu c (by rw [hrange]; omega), hu i (by rw [hrange]; omega)]
  rw [interpolate, foldl_update hvalue]
  simp only [hrange]

/-- the times from `b` to `c` are overwritten by one value between the time in front of them and the one at `c` -/
def Wrote (c : Nat) (t u : Nat → Int) : Prop :=
  ∃ b ≤ c, ∃ v ≤ t c, (∃ k ≤ c, t k ≤ v) ∧ (∀ k < b, t k ≤ v) ∧ u = fun k => if b ≤ k ∧ k < c then v else t k

def SortedBelow (n : Nat) (t : Nat → Int) : Prop := ∀ j k, j ≤ k → k < n → t j ≤ t k

theorem interpolate_wrote (h : SortedBelow c t) (hi : i < c) (hle : t i ≤ t c) : Wrote c t (interpolate c i t) := by
  have hnonneg : 0 ≤ (t c - t i).tdiv ((c : Int) - i) := Int.tdiv_nonneg (by omega) (by omega)
  have hupper : (t c - t i).tdiv ((c : Int) - i) ≤ t c - t i := Int.tdiv_le_self _ (by omega)
  refine ⟨i + 1, hi, (t c - t i).tdiv ((c : Int) - i) + t i, by omega, ⟨i, hi.le, by omega⟩, fun k hk => ?_,
    interpolate_eq hi⟩
  have := h k i (by omega) hi
  omega

theorem searchBack_wrote (h : SortedBelow c t) (hi : i < c) : Wrote c t (searchBack c t i) := by
  induction i with
  | zero =>
    unfold searchBack
    split
    · next hle => exact interpolate_wrote h hi hle
    · refine ⟨0, Nat.zero_le c, t c, le_rfl, ⟨c, le_rfl, le_rfl⟩, nofun, ?_⟩
      rw [foldl_update (v := fun t => t c) fun u hu => hu c not_mem_range_self]
      funext k
      simp
  | succ i ih =>
    unfold searchBack
    split
    · next hle => exact interpolate_wrote h hi hle
    · exact ih (by omega)

theorem sortOut_wrote (h : SortedBelow c t) : Wrote c t (sortOut t c) := by
  unfold sortOut
  split
  · exact searchBack_wrote h (by omega)
  · next hle =>
    refine ⟨c, le_rfl, t c, le_rfl, ⟨c, le_rfl, le_rfl⟩, fun k hk => ?_, ?_⟩
    · have := h k (c - 1) (by omega) (by omega)
      omega
    · funext k
      exact (if_neg (by omega)).symm

theorem Wrote.sorted {u : Nat → Int} (hw : Wrote c t u) (h : SortedBelow c t) : SortedBelow (c + 1) u := by
  obtain ⟨b, hb, v, hv, -, hbelow, rfl⟩ := hw
  intro j k hjk hk
  dsimp only
  by_cases hkc : k = c
  · subst hkc
    rw [if_neg (show ¬(b ≤ k ∧ k < k) by omega)]
    split
    · exact hv
    · next hj =>
      by_cases hjb : j < b
      · exact (hbelow j hjb).trans hv
      · rw [show j = k by omega]
  · have hjk' := h j k hjk (by omega)
    split
    · split
      · exact le_rfl
      · next hj hk' => omega
    · next hj =>
      split
      · exact hbelow j (by omega)
      · exact hjk'

/-! ## all of them -/

theorem foldl_sortOut (n : Nat) (t : Nat → Int) : SortedBelow n (smooth n t) ∧ (∀ k, n ≤ k + 1 → smooth n t k = t k) ∧
      ∀ lo hi m, n ≤ m → (∀ k < m, lo ≤ t k ∧ t k ≤ hi) → ∀ k < m, lo ≤ smooth n t k ∧ smooth n t k ≤ hi := by
  induction n with
  | zero => exact ⟨nofun, fun _ _ => rfl, fun _ _ _ _ h => h⟩
  | succ n ih =>
    obtain ⟨hsorted, hsame, hbounds⟩ := ih
    have hw := sortOut_wrote hsorted
    rw [smooth, range_succ, foldl_append]
    refine ⟨hw.sorted hsorted, fun k hk => ?_, fun lo hi m hm h k hk => ?_⟩ <;>
      obtain ⟨b, hb, v, hv, ⟨l, hl, hlv⟩, -, hu⟩ := hw
    · show sortOut (smooth n t) n k = t k
      rw [hu]
      exact (if_neg (by omega)).trans (hsame k (by omega))
    · have hold := hbounds lo hi m (by omega) h
      show lo ≤ sortOut (smooth n t) n k ∧ sortOut (smooth n t) n k ≤ hi
      rw [hu]
      dsimp only
      split
      · exact ⟨(hold l (by omega)).1.trans hlv, hv.trans (hold n (by omega)).2⟩
      · exact hold k hk

/-- **retargeting works on ordered times**: the last time stays, the others stay within the bounds of the first ones,
and no gap is negative -/
theorem smooth_spec (n : Nat) (times : Nat → Int) :
    (∀ j k, j ≤ k → k < n → smooth n times j ≤ smooth n times k) ∧ smooth n times (n - 1) = times (n - 1) ∧
      (∀ nCountBlocks, 2 ≤ nCountBlocks → nCountBlocks ≤ n → 0 ≤ gap n (smooth n times) nCountBlocks) ∧
      ∀ lo hi, lo ≤ hi → (∀ k < n, lo ≤ times k ∧ times k ≤ hi) →
        (∀ k < n, lo ≤ smooth n times k ∧ smooth n times k ≤ hi) ∧
          ∑ k ∈ Finset.range (n - 1), gap n (smooth n times) (k + 2) ≤ hi - lo := by
  obtain ⟨hsorted, hsame, hbounds⟩ := foldl_sortOut n times
  refine ⟨hsorted, hsame _ (by omega), fun c hc hn => ?_, fun lo hi hle h => ?_⟩
  · have := hsorted (n - c) (n - (c - 1)) (by omega) (by omega)
    unfold gap
    omega
  · have hin := hbounds lo hi n le_rfl h
    refine ⟨hin, ?_⟩
    have hgap : ∀ k, gap n (smooth n times) (k + 2) =
        smooth n times (n - (k + 1)) - smooth n times (n - (k + 1 + 1)) := fun _ => rfl
    simp only [hgap]
    rw [Finset.sum_range_sub' (fun k => smooth n times (n - (k + 1)))]
    cases n with
    | zero =>
      simp
      omega
    | succ n =>
      have hlast := hin n (by omega)
      have hfirst := hin 0 (by omega)
      simp only [Nat.add_sub_cancel, Nat.zero_add, Nat.sub_self]
      omega

example : (List.range 4).map (smooth 4 fun k => [10, 30, 20, 40].getD k 0) = [10, 15, 20, 40] := by decide

end BitCash.Retarget
