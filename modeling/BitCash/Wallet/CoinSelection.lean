import Mathlib.Data.List.Sort
import BitCash.Lib.Subset
import BitCash.Primitives.Transaction

/-!
# Coin selection by subset sums

`KnapsackSolver` chooses coins for a target.
-/

set_option linter.unusedSectionVars false

namespace BitCash
open Subset List

variable {H : Type} [DecidableEq H]

def CENT : Int := 10000000

def MIN_CHANGE : Int := CENT

structure CInputCoin (H : Type) where
  outpoint : COutPoint H
  txout : CTxOut
  effectiveValue : Int
  fee : Int
  longTermFee : Int
  deriving DecidableEq

def CInputCoin.nValue (c : CInputCoin H) : Int := c.txout.nValue

structure CoinSort (H : Type) where
  run : List (CInputCoin H) → List (CInputCoin H)
  perm : ∀ l, (run l).Perm l
  sorted : ∀ l, (run l).Pairwise fun a b => b.effectiveValue ≤ a.effectiveValue

structure CoinChoices (H : Type) where
  sort : CoinSort H
  shuffle : List (CInputCoin H) → List (CInputCoin H)
  shuffle_perm : ∀ l, (shuffle l).Perm l
  randbool : Nat → Nat → Nat → Bool

def coinInsert (s : List (CInputCoin H)) (c : CInputCoin H) : List (CInputCoin H) :=
  if c.outpoint ∈ s.map (·.outpoint) then s else s ++ [c]

def takeCoin (r : List (CInputCoin H) × Int) (c : CInputCoin H) : List (CInputCoin H) × Int :=
  (coinInsert r.1 c, r.2 + c.nValue)

/-! ## the code -/

structure Trial where
  vfIncluded : List Bool
  nTotal : Int
  fReachedTarget : Bool
  vfBest : List Bool
  nBest : Int

def Trial.take (nTargetValue : Int) (t : Trial) (c : CInputCoin H) (i : Nat) : Trial :=
  let nTotal := t.nTotal + c.nValue
  let vfIncluded := t.vfIncluded.set i true
  if nTargetValue ≤ nTotal then
    { vfIncluded := vfIncluded.set i false
      nTotal := nTotal - c.nValue
      fReachedTarget := true
      vfBest := if nTotal < t.nBest then vfIncluded else t.vfBest
      nBest := if nTotal < t.nBest then nTotal else t.nBest }
  else { t with vfIncluded, nTotal }

/-- one pass over the coins; `toss` is there in the first pass only -/
def Trial.pass (nTargetValue : Int) (toss : Option (Nat → Bool)) (vValue : List (CInputCoin H)) (t : Trial) :
    Trial :=
  vValue.zipIdx.foldl
    (fun t ci =>
      if (match toss with
          | some randbool => randbool ci.2
          | none => !t.vfIncluded.getD ci.2 false)
      then t.take nTargetValue ci.1 ci.2 else t) t

def repetition (nTargetValue : Int) (randbool : Nat → Bool) (vValue : List (CInputCoin H))
    (best : List Bool × Int) : List Bool × Int :=
  let t := Trial.pass nTargetValue (some randbool) vValue
    ⟨List.replicate vValue.length false, 0, false, best.1, best.2⟩
  let t := if t.fReachedTarget then t else t.pass nTargetValue none vValue
  (t.vfBest, t.nBest)

def repetitions (nTargetValue : Int) (randbool : Nat → Nat → Bool) (vValue : List (CInputCoin H)) :
    Nat → List Bool × Int → List Bool × Int
  | 0, best => best
  | left + 1, best =>
    if best.2 = nTargetValue then best
    else repetitions nTargetValue randbool vValue left (repetition nTargetValue (randbool left) vValue best)

def approximateBestSubset (randbool : Nat → Nat → Bool) (vValue : List (CInputCoin H))
    (nTotalLower nTargetValue : Int) : List Bool × Int :=
  repetitions nTargetValue randbool vValue 1000 (List.replicate vValue.length true, nTotalLower)

structure Collected (H : Type) where
  coinLowestLarger : Option (CInputCoin H)
  vValue : List (CInputCoin H)
  nTotalLower : Int

def Collected.lowers (r : Collected H) (coin : CInputCoin H) : Bool :=
  match r.coinLowestLarger with
  | none => true
  | some c => decide (coin.nValue < c.nValue)

def collectCoins (nTargetValue : Int) : List (CInputCoin H) → Collected H → CInputCoin H ⊕ Collected H
  | [], r => .inr r
  | coin :: coins, r =>
    if coin.nValue = nTargetValue then .inl coin
    else if coin.nValue < nTargetValue + MIN_CHANGE then
      collectCoins nTargetValue coins
        { r with vValue := r.vValue ++ [coin], nTotalLower := r.nTotalLower + coin.nValue }
    else if r.lowers coin then
      collectCoins nTargetValue coins { r with coinLowestLarger := some coin }
    else collectCoins nTargetValue coins r

structure Selection (H : Type) where
  ret : Bool
  setCoinsRet : List (CInputCoin H)
  nValueRet : Int

def Selection.chosen (coins : List (CInputCoin H)) : Selection H :=
  let r := coins.foldl takeCoin ([], 0)
  ⟨true, r.1, r.2⟩

def bestSubset (R : CoinChoices H) (vValue : List (CInputCoin H)) (nTotalLower nTargetValue : Int) :
    List Bool × Int :=
  let best := approximateBestSubset (R.randbool 0) vValue nTotalLower nTargetValue
  if best.2 ≠ nTargetValue ∧ nTargetValue + MIN_CHANGE ≤ nTotalLower then
    approximateBestSubset (R.randbool 1) vValue nTotalLower (nTargetValue + MIN_CHANGE)
  else best

def solve (R : CoinChoices H) (nTargetValue : Int) (r : Collected H) : Selection H :=
  let vValue := R.sort.run r.vValue
  let best := bestSubset R vValue r.nTotalLower nTargetValue
  match r.coinLowestLarger with
  | some coin =>
    if (best.2 ≠ nTargetValue ∧ best.2 < nTargetValue + MIN_CHANGE) ∨ coin.nValue ≤ best.2 then .chosen [coin]
    else .chosen (pick vValue best.1)
  | none => .chosen (pick vValue best.1)

def knapsackSolver (R : CoinChoices H) (nTargetValue : Int) (vCoins : List (CInputCoin H)) : Selection H :=
  match collectCoins nTargetValue (R.shuffle vCoins) ⟨none, [], 0⟩ with
  | .inl coin => .chosen [coin]
  | .inr r =>
    if r.nTotalLower = nTargetValue then .chosen r.vValue
    else if r.nTotalLower < nTargetValue then
      match r.coinLowestLarger with
      | none => ⟨false, [], 0⟩
      | some coin => .chosen [coin]
    else solve R nTargetValue r

/-! ## the chosen set -/

def Distinct (coins : List (CInputCoin H)) : Prop := (coins.map (·.outpoint)).Nodup

variable {l : List (CInputCoin H)}

theorem Distinct.sublist {c : List (CInputCoin H)} (h : Distinct l) (hc : c.Sublist l) : Distinct c :=
  List.Nodup.sublist (hc.map _) h

theorem Distinct.perm {c : List (CInputCoin H)} (h : Distinct l) (hc : c.Perm l) : Distinct c :=
  (hc.map _).nodup_iff.2 h

theorem foldl_takeCoin {s : List (CInputCoin H)} (v : Int) (h : Distinct (s ++ l)) :
    l.foldl takeCoin (s, v) = (s ++ l, v + total CInputCoin.nValue l) := by
  induction l generalizing s v with
  | nil => simp
  | cons c l ih =>
    have hnew : c.outpoint ∉ s.map (·.outpoint) := by
      intro hold
      unfold Distinct at h
      rw [map_append, nodup_append'] at h
      exact h.2.2 hold (by simp)
    have hinsert : takeCoin (s, v) c = (s ++ [c], v + c.nValue) := by
      unfold takeCoin coinInsert
      rw [if_neg hnew]
    rw [foldl_cons, hinsert, ih (v + c.nValue) (by simpa using h), total_cons, append_assoc, Int.add_assoc]
    rfl

structure Selection.Sound (coins : List (CInputCoin H)) (nTargetValue : Int) (r : Selection H) : Prop where
  ret : r.ret = true
  subset : ∀ c ∈ r.setCoinsRet, c ∈ coins
  distinct : Distinct r.setCoinsRet
  value : total CInputCoin.nValue r.setCoinsRet = r.nValueRet
  reaches : nTargetValue ≤ r.nValueRet

variable {nTargetValue : Int} {coins : List (CInputCoin H)}

theorem chosen_sound (hl : Distinct l)
    (hsub : ∀ c ∈ l, c ∈ coins) (hreach : nTargetValue ≤ total CInputCoin.nValue l) :
    (Selection.chosen l).Sound coins nTargetValue := by
  have hfold : l.foldl takeCoin ([], 0) = (l, total CInputCoin.nValue l) := by
    rw [foldl_takeCoin 0 (by simpa using hl), nil_append, Int.zero_add]
  unfold Selection.chosen
  rw [hfold]
  exact ⟨rfl, hsub, hl, rfl, hreach⟩

theorem chosen_single_sound {coin : CInputCoin H} (hmem : coin ∈ coins) (hreach : nTargetValue ≤ coin.nValue) :
    (Selection.chosen [coin]).Sound coins nTargetValue := by
  refine chosen_sound (nodup_singleton _) ?_ (by simpa using hreach)
  intro c hc
  rwa [mem_singleton.1 hc]

/-! ## the trials -/

structure TrialInv (nTargetValue : Int) (vValue : List (CInputCoin H)) (t : Trial) : Prop where
  length : t.vfIncluded.length = vValue.length
  included : total CInputCoin.nValue (pick vValue t.vfIncluded) = t.nTotal
  best : total CInputCoin.nValue (pick vValue t.vfBest) = t.nBest
  reaches : nTargetValue ≤ t.nBest

variable {vValue : List (CInputCoin H)} {t : Trial} {best : List Bool × Int} {c : CInputCoin H} {r : Collected H}

theorem Trial.take_inv {i : Nat} (h : TrialInv nTargetValue vValue t) (hc : vValue[i]? = some c)
    (hfree : t.vfIncluded[i]? = some false) : TrialInv nTargetValue vValue (t.take nTargetValue c i) := by
  have hset : total CInputCoin.nValue (pick vValue (t.vfIncluded.set i true)) = t.nTotal + c.nValue := by
    rw [total_pick_set hc hfree, h.included]
  have hback : (t.vfIncluded.set i true).set i false = t.vfIncluded := by
    obtain ⟨hi, hget⟩ := List.getElem?_eq_some_iff.1 hfree
    rw [set_set, ← hget, set_getElem_self]
  unfold Trial.take
  dsimp only
  split
  · next hreach =>
    rw [hback, Int.add_sub_cancel]
    refine ⟨h.length, h.included, ?_, ?_⟩
    · show total _ (pick vValue (if _ then _ else _)) = if _ then _ else _
      split
      · exact hset
      · exact h.best
    · show nTargetValue ≤ if _ then _ else _
      split
      · exact hreach
      · exact h.reaches
  · exact ⟨by rw [length_set, h.length], hset, h.best, h.reaches⟩

theorem Trial.take_flag {i j : Nat} (hij : i ≠ j) : (t.take nTargetValue c i).vfIncluded[j]? = t.vfIncluded[j]? := by
  unfold Trial.take
  dsimp only
  split
  · rw [set_set, getElem?_set_ne hij]
  · rw [getElem?_set_ne hij]

theorem pass_from {toss : Option (Nat → Bool)} (done : List (CInputCoin H))
    {rest : List (CInputCoin H)} (h : TrialInv nTargetValue (done ++ rest) t)
    (hclear : toss ≠ none → ∀ j, done.length ≤ j → j < (done ++ rest).length →
      t.vfIncluded[j]? = some false) : TrialInv nTargetValue (done ++ rest) ((rest.zipIdx done.length).foldl
      (fun t ci =>
        if (match toss with
            | some randbool => randbool ci.2
            | none => !t.vfIncluded.getD ci.2 false)
        then t.take nTargetValue ci.1 ci.2 else t) t) := by
  induction rest generalizing done t with
  | nil => exact h
  | cons c rest ih =>
    have hsplit : done ++ c :: rest = (done ++ [c]) ++ rest := by simp
    have hat : (done ++ c :: rest)[done.length]? = some c := by simp
    have hlt : done.length < (done ++ c :: rest).length := by simp
    have hlen : done.length + 1 = (done ++ [c]).length := by simp
    rw [zipIdx_cons, foldl_cons, hlen]
    -- the flag of this coin is clear whenever the coin is taken
    have hstep : ∀ b : Bool, (b = true → t.vfIncluded[done.length]? = some false) →
        TrialInv nTargetValue (done ++ c :: rest) (if b then t.take nTargetValue c done.length else t) := by
      intro b hb
      cases b with
      | false => exact h
      | true => exact Trial.take_inv h hat (hb rfl)
    have hflags : ∀ (b : Bool) (j : Nat), done.length + 1 ≤ j →
        (if b then t.take nTargetValue c done.length else t).vfIncluded[j]? = t.vfIncluded[j]? := by
      intro b j hj
      cases b with
      | false => rfl
      | true => exact Trial.take_flag (by omega)
    rw [hsplit] at h hstep hclear hlt ⊢
    refine ih (done ++ [c]) (hstep _ ?_) ?_
    · intro hb
      cases toss with
      | some randbool => exact hclear (by simp) _ le_rfl hlt
      | none =>
        have hin : done.length < t.vfIncluded.length := by rw [h.length]; exact hlt
        simp only [Bool.not_eq_true', getD_eq_getElem?_getD] at hb
        rw [getElem?_eq_getElem hin] at hb ⊢
        exact congrArg some hb
    · intro htoss j hj hj'
      rw [length_append, length_singleton] at hj
      rw [hflags _ j hj]
      exact hclear htoss j (by omega) hj'

theorem pass_inv (toss : Option (Nat → Bool)) (h : TrialInv nTargetValue vValue t)
    (hclear : toss ≠ none → t.vfIncluded = replicate vValue.length false) :
    TrialInv nTargetValue vValue (t.pass nTargetValue toss vValue) := by
  refine pass_from [] h ?_
  intro htoss j _ hj
  rw [hclear htoss]
  exact getElem?_replicate_of_lt hj

def BestInv (nTargetValue : Int) (vValue : List (CInputCoin H)) (best : List Bool × Int) : Prop :=
  total CInputCoin.nValue (pick vValue best.1) = best.2 ∧ nTargetValue ≤ best.2

theorem repetition_inv {randbool : Nat → Bool} (h : BestInv nTargetValue vValue best) :
    BestInv nTargetValue vValue (repetition nTargetValue randbool vValue best) := by
  have hfresh : TrialInv nTargetValue vValue ⟨replicate vValue.length false, 0, false, best.1, best.2⟩ :=
    ⟨length_replicate, by rw [pick_replicate_false, total_nil], h.1, h.2⟩
  have hfirst := pass_inv (some randbool) hfresh fun _ => rfl
  unfold repetition
  dsimp only
  split
  · exact ⟨hfirst.best, hfirst.reaches⟩
  · have hsecond := pass_inv none hfirst fun hno => absurd rfl hno
    exact ⟨hsecond.best, hsecond.reaches⟩

theorem repetitions_inv {randbool : Nat → Nat → Bool} {left : Nat} (h : BestInv nTargetValue vValue best) :
    BestInv nTargetValue vValue (repetitions nTargetValue randbool vValue left best) := by
  induction left generalizing best with
  | zero => exact h
  | succ left ih =>
    unfold repetitions
    split
    · exact h
    · exact ih (repetition_inv h)

theorem approximateBestSubset_inv (randbool : Nat → Nat → Bool) (h : nTargetValue ≤ total CInputCoin.nValue vValue) :
    BestInv nTargetValue vValue
      (approximateBestSubset randbool vValue (total CInputCoin.nValue vValue) nTargetValue) :=
  repetitions_inv ⟨by rw [pick_replicate_true], h⟩

theorem bestSubset_inv (R : CoinChoices H) (h : nTargetValue ≤ total CInputCoin.nValue vValue) :
    BestInv nTargetValue vValue (bestSubset R vValue (total CInputCoin.nValue vValue) nTargetValue) := by
  have hchange : (0 : Int) ≤ MIN_CHANGE := by decide
  unfold bestSubset
  dsimp only
  split
  · next hsecond =>
    obtain ⟨htotal, hreach⟩ := approximateBestSubset_inv (R.randbool 1) hsecond.2
    exact ⟨htotal, by omega⟩
  · exact approximateBestSubset_inv (R.randbool 0) h

/-! ## the solver -/

structure CollectInv (nTargetValue : Int) (seen : List (CInputCoin H)) (r : Collected H) : Prop where
  sub : r.vValue.Sublist seen
  lower : r.nTotalLower = total CInputCoin.nValue r.vValue
  all : r.coinLowestLarger = none → r.vValue = seen
  larger : ∀ c, r.coinLowestLarger = some c → c ∈ seen ∧ nTargetValue + MIN_CHANGE ≤ c.nValue

def CollectEnd (nTargetValue : Int) (seen : List (CInputCoin H)) : CInputCoin H ⊕ Collected H → Prop
  | .inl coin => coin ∈ seen ∧ coin.nValue = nTargetValue
  | .inr r => CollectInv nTargetValue seen r

theorem collect_spec {seen : List (CInputCoin H)} (rest : List (CInputCoin H)) (h : CollectInv nTargetValue seen r) :
    CollectEnd nTargetValue (seen ++ rest) (collectCoins nTargetValue rest r) := by
  induction rest generalizing seen r with
  | nil => rwa [append_nil]
  | cons coin rest ih =>
    have hsplit : seen ++ coin :: rest = (seen ++ [coin]) ++ rest := by simp
    have hmem : coin ∈ seen ++ [coin] := by simp
    have hlarger : ∀ c, r.coinLowestLarger = some c → c ∈ seen ++ [coin] ∧ nTargetValue + MIN_CHANGE ≤ c.nValue := by
      intro c hc
      exact ⟨mem_append_left _ (h.larger c hc).1, (h.larger c hc).2⟩
    have hskip : r.vValue.Sublist (seen ++ [coin]) := h.sub.trans (sublist_append_left _ _)
    unfold collectCoins
    rw [hsplit]
    split
    · next heq => exact ⟨mem_append_left _ hmem, heq⟩
    · split
      · refine ih ⟨h.sub.append_right _, ?_, ?_, hlarger⟩
        · rw [h.lower, total_append, total_cons, total_nil, Int.add_zero]
        · intro hnone
          rw [h.all hnone]
      · next hbig =>
        split
        · refine ih ⟨hskip, h.lower, ?_, ?_⟩
          · intro hno
            cases hno
          · intro c hc
            cases hc
            exact ⟨hmem, Int.not_lt.1 hbig⟩
        · next hkeep =>
          refine ih ⟨hskip, h.lower, ?_, hlarger⟩
          intro hnone
          unfold Collected.lowers at hkeep
          rw [hnone] at hkeep
          exact absurd rfl hkeep

theorem solve_sound {R : CoinChoices H}
    (h : CollectInv nTargetValue coins r) (hd : Distinct coins) (hlower : nTargetValue ≤ r.nTotalLower) :
    (solve R nTargetValue r).Sound coins nTargetValue := by
  have hchange : (0 : Int) ≤ MIN_CHANGE := by decide
  have hperm := R.sort.perm r.vValue
  have htotal : r.nTotalLower = total CInputCoin.nValue (R.sort.run r.vValue) := by
    rw [h.lower, total_perm hperm]
  have hbest : BestInv nTargetValue (R.sort.run r.vValue)
      (bestSubset R (R.sort.run r.vValue) r.nTotalLower nTargetValue) := by
    rw [htotal] at hlower ⊢
    exact bestSubset_inv R hlower
  have hsubset : (Selection.chosen (pick (R.sort.run r.vValue)
      (bestSubset R (R.sort.run r.vValue) r.nTotalLower nTargetValue).1)).Sound coins nTargetValue := by
    have hsub := pick_sublist (R.sort.run r.vValue) (bestSubset R (R.sort.run r.vValue) r.nTotalLower nTargetValue).1
    refine chosen_sound (((hd.sublist h.sub).perm hperm).sublist hsub) ?_ (by rw [hbest.1]; exact hbest.2)
    intro c hc
    exact h.sub.subset (hperm.subset (hsub.subset hc))
  unfold solve
  dsimp only
  split
  · next coin hcoin =>
    obtain ⟨hmem, hvalue⟩ := h.larger coin hcoin
    split
    · exact chosen_single_sound hmem (by omega)
    · exact hsubset
  · exact hsubset

theorem knapsackSolver_cases (R : CoinChoices H) (nTargetValue : Int) {vCoins : List (CInputCoin H)}
    (hdistinct : Distinct vCoins) : (knapsackSolver R nTargetValue vCoins).Sound vCoins nTargetValue ∨
      (knapsackSolver R nTargetValue vCoins).ret = false ∧ total CInputCoin.nValue vCoins < nTargetValue := by
  have hchange : (0 : Int) ≤ MIN_CHANGE := by decide
  have hperm := R.shuffle_perm vCoins
  have hstart : CollectInv nTargetValue [] (⟨none, [], 0⟩ : Collected H) :=
    ⟨List.Sublist.refl _, rfl, fun _ => rfl, fun c hc => by cases hc⟩
  have hspec := collect_spec (R.shuffle vCoins) hstart
  rw [nil_append] at hspec
  have hshuffled : ∀ r : Selection H, r.Sound (R.shuffle vCoins) nTargetValue → r.Sound vCoins nTargetValue :=
    fun r hr => ⟨hr.ret, fun c hc => hperm.subset (hr.subset c hc), hr.distinct, hr.value, hr.reaches⟩
  unfold knapsackSolver
  cases hcollect : collectCoins nTargetValue (R.shuffle vCoins) ⟨none, [], 0⟩ with
  | inl coin =>
    rw [hcollect] at hspec
    exact .inl (hshuffled _ (chosen_single_sound hspec.1 (by rw [hspec.2])))
  | inr r =>
    rw [hcollect] at hspec
    have hd := hdistinct.perm hperm
    dsimp only
    split
    · next heq =>
      refine .inl (hshuffled _ (chosen_sound (hd.sublist hspec.sub) hspec.sub.subset ?_))
      rw [← hspec.lower, heq]
    · split
      · next hless =>
        split
        · next hnone =>
          refine .inr ⟨rfl, ?_⟩
          rw [← total_perm hperm, ← hspec.all hnone, ← hspec.lower]
          exact hless
        · next coin hcoin =>
          obtain ⟨hmem, hvalue⟩ := hspec.larger coin hcoin
          exact .inl (hshuffled _ (chosen_single_sound hmem (by omega)))
      · next hmore => exact .inl (hshuffled _ (solve_sound hspec hd (Int.not_lt.1 hmore)))

/-- **the knapsack selection is sound, and fails only for lack of funds**, whatever the random choices are -/
theorem knapsackSolver_sound (R : CoinChoices H) (nTargetValue : Int) (vCoins : List (CInputCoin H))
    (hdistinct : Distinct vCoins) (hvalues : ∀ c ∈ vCoins, 0 ≤ c.nValue) :
    ((knapsackSolver R nTargetValue vCoins).ret = false ↔ total CInputCoin.nValue vCoins < nTargetValue) ∧
    ((knapsackSolver R nTargetValue vCoins).ret = true →
      (knapsackSolver R nTargetValue vCoins).Sound vCoins nTargetValue) := by
  rcases knapsackSolver_cases R nTargetValue hdistinct with hr | ⟨hfalse, hlack⟩
  · -- a sound selection means that the coins reach the target
    obtain ⟨l, hl, hlsub⟩ := subperm_of_subset (List.Nodup.of_map _ hr.distinct) hr.subset
    have hle := total_le_of_sublist (f := CInputCoin.nValue) hlsub hvalues
    rw [total_perm hl, hr.value] at hle
    have hreach := hr.reaches
    refine ⟨⟨fun hfalse => ?_, fun hlack => ?_⟩, fun _ => hr⟩
    · rw [hr.ret] at hfalse
      cases hfalse
    · omega
  · refine ⟨⟨fun _ => hlack, fun _ => hfalse⟩, fun htrue => ?_⟩
    rw [hfalse] at htrue
    cases htrue

def stableSort (H : Type) : CoinSort H where
  run l := l.mergeSort fun a b => decide (b.effectiveValue ≤ a.effectiveValue)
  perm l := List.mergeSort_perm l _
  sorted l := by
    refine (List.pairwise_mergeSort ?_ ?_ l).imp of_decide_eq_true
    · intro a b c hab hbc
      exact decide_eq_true ((of_decide_eq_true hbc).trans (of_decide_eq_true hab))
    · intro a b
      simp only [Bool.or_eq_true, decide_eq_true_eq]
      exact Int.le_total _ _

def luckyChoices (H : Type) : CoinChoices H := ⟨stableSort H, id, fun l => List.Perm.refl l, fun _ _ _ => true⟩

def sampleCoin (h : Nat) (nValue : Int) : CInputCoin Nat := ⟨⟨h, 0⟩, .of nValue nValue [] 0, nValue, 0, 0⟩

theorem knapsackSolver_of_two : (knapsackSolver (luckyChoices Nat) 4 [sampleCoin 1 3, sampleCoin 2 5]).Sound
      [sampleCoin 1 3, sampleCoin 2 5] 4 := by
  obtain ⟨hfalse, hsound⟩ := knapsackSolver_sound (luckyChoices Nat) 4 [sampleCoin 1 3, sampleCoin 2 5]
    (by unfold Distinct; decide) (by decide)
  refine hsound (Bool.eq_true_of_not_eq_false ?_)
  rw [hfalse]
  decide

end BitCash
