import BitCash.Wallet.BranchAndBound

/-!
# The choice of inputs

`CWallet::SelectCoins` takes the coins the user has selected, and for what they do not reach it calls
`SelectCoinsMinConf` with weaker and weaker demands on the coins, until one call succeeds.
-/

set_option linter.unusedSectionVars false

namespace BitCash
open Subset Checks CInputCoin List

variable {H : Type} [DecidableEq H]

/-! ## the code -/

structure FeeRate where
  getFee : Nat → Int
  nonneg : ∀ n, 0 ≤ getFee n

structure COutput (H : Type) where
  outpoint : COutPoint H
  txout : CTxOut
  nDepth : Int
  nInputBytes : Int
  fSpendable : Bool
  fromMe : Bool

structure AvailableCoins (H : Type) where
  coins : List (COutput H)
  distinct : (coins.map (·.outpoint)).Nodup

structure CCoinControl (H : Type) where
  setSelected : List (COutPoint H)
  nodup : setSelected.Nodup
  fAllowOtherInputs : Bool

def CCoinControl.hasSelected (c : CCoinControl H) : Bool := decide (0 < c.setSelected.length)

structure CoinEligibilityFilter where
  confMine : Int
  confTheirs : Int
  maxAncestors : Nat

structure CoinSelectionParams where
  useBnb : Bool
  changeOutputSize : Nat
  changeSpendSize : Nat
  effectiveFee : FeeRate
  txNoinputsSize : Nat

structure SelectEnv (H : Type) where
  mapWallet : H → Option (List CTxOut)
  withinChainLimit : H → Nat → Bool
  longTermFeerate : FeeRate
  discardRate : FeeRate
  spendZeroConfChange : Bool
  rejectLongChains : Bool
  maxChainLength : Nat
  willprovideprivatekeylater : Bool
  choices : Nat → Nat → CoinChoices H

variable (E : SelectEnv H)

def outputEligibleForSpending (filter : CoinEligibilityFilter) (output : COutput H) : Bool :=
  if !output.fSpendable && !E.willprovideprivatekeylater then false
  else if output.nDepth < (if output.fromMe then filter.confMine else filter.confTheirs) then false
  else E.withinChainLimit output.outpoint.hash filter.maxAncestors

def CInputCoin.of (outpoint : COutPoint H) (txout : CTxOut) : CInputCoin H :=
  ⟨outpoint, txout, txout.nValue, 0, 0⟩

def COutput.inputFee (output : COutput H) (rate : FeeRate) : Int :=
  if output.nInputBytes < 0 then 0 else rate.getFee output.nInputBytes.toNat

def COutput.coin (output : COutput H) : CInputCoin H := .of output.outpoint output.txout

def COutput.pricedCoin (output : COutput H) (effectiveFee longTermFeerate : FeeRate) : CInputCoin H :=
  { output.coin with
    effectiveValue := output.txout.nValue - output.inputFee effectiveFee
    fee := output.inputFee effectiveFee
    longTermFee := output.inputFee longTermFeerate }

def selectCoinsMinConf (R : CoinChoices H) (nTargetValue : Int) (filter : CoinEligibilityFilter)
    (vCoins : List (COutput H)) (params : CoinSelectionParams) : Res (Selection H × Bool) :=
  let eligible := vCoins.filter (outputEligibleForSpending E filter)
  if params.useBnb then do
    let utxoPool := (eligible.map (·.pricedCoin params.effectiveFee E.longTermFeerate)).filter
      fun coin => decide (0 < coin.effectiveValue)
    let costOfChange := E.discardRate.getFee params.changeSpendSize +
      params.effectiveFee.getFee params.changeOutputSize
    let notInputFees := params.effectiveFee.getFee params.txNoinputsSize
    let r ← selectCoinsBnB R.sort utxoPool nTargetValue costOfChange 0 notInputFees
    .ok (⟨r.ret, r.outSet, r.valueRet⟩, true)
  else .ok (knapsackSolver R nTargetValue (eligible.map (·.coin)), false)

def SelectEnv.filters : List CoinEligibilityFilter :=
  [⟨1, 6, 0⟩, ⟨1, 1, 0⟩] ++
    (if E.spendZeroConfChange then
      [⟨0, 1, 2⟩, ⟨0, 1, min 4 (E.maxChainLength / 3)⟩, ⟨0, 1, E.maxChainLength / 2⟩, ⟨0, 1, E.maxChainLength⟩] ++
        (if !E.rejectLongChains then [⟨0, 1, 18446744073709551615⟩] else [])
    else [])

/-- the calls of `SelectCoinsMinConf` up to the first that succeeds; `last` is what the call before left -/
def tryFilters (pass : Nat) (nTargetValue : Int) (vCoins : List (COutput H)) (params : CoinSelectionParams) :
    Nat → List CoinEligibilityFilter → Selection H × Bool → Res (Selection H × Bool)
  | _, [], last => .ok last
  | i, filter :: filters, _ => do
    let r ← selectCoinsMinConf E (E.choices pass i) nTargetValue filter vCoins params
    if r.1.ret then .ok r else tryFilters pass nTargetValue vCoins params (i + 1) filters r

def addPreset (r : List (CInputCoin H) × Int) (outpoint : COutPoint H) : Option (List (CInputCoin H) × Int) :=
  match E.mapWallet outpoint.hash with
  | none => none
  | some vout =>
    match vout[outpoint.n.toNat]? with
    | none => none
    | some txout => some (takeCoin r (.of outpoint txout))

structure SelectResult (H : Type) where
  ret : Bool
  setCoinsRet : List (CInputCoin H)
  nValueRet : Int
  bnbUsed : Option Bool
  useBnb : Bool

def withPresets (preset : List (CInputCoin H) × Int) (r : Selection H) (bnbUsed : Option Bool) (useBnb : Bool) :
    SelectResult H :=
  ⟨r.ret, preset.1.foldl coinInsert r.setCoinsRet, r.nValueRet + preset.2, bnbUsed, useBnb⟩

local instance : LawfulBEq (COutPoint H) := inferInstance

def selectCoins (pass : Nat) (vAvailableCoins : List (COutput H)) (nTargetValue : Int) (control : CCoinControl H)
    (params : CoinSelectionParams) : Res (SelectResult H) :=
  if control.hasSelected && !control.fAllowOtherInputs then
    let spendable := vAvailableCoins.filter fun out => out.fSpendable || E.willprovideprivatekeylater
    let r := (spendable.map (·.coin)).foldl takeCoin ([], 0)
    .ok ⟨decide (nTargetValue ≤ r.2), r.1, r.2, some false, params.useBnb⟩
  else
    -- preset inputs exclude the branch-and-bound selector
    let useBnb := !control.hasSelected && params.useBnb
    match control.setSelected.foldlM (addPreset E) ([], 0) with
    | none => .ok ⟨false, [], 0, some false, useBnb⟩
    | some preset =>
      let vCoins := vAvailableCoins.filter fun out => decide (out.outpoint ∉ preset.1.map (·.outpoint))
      if nTargetValue ≤ preset.2 then
        .ok (withPresets preset ⟨true, [], 0⟩ (if control.hasSelected then some false else none) useBnb)
      else do
        let r ← tryFilters E pass (nTargetValue - preset.2) vCoins
          { params with useBnb } 0 E.filters (⟨false, [], 0⟩, false)
        .ok (withPresets preset r.1 (some r.2) useBnb)

/-! ## what is chosen -/

structure Chosen (vCoins : List (COutput H)) (nTargetValue : Int) (coins : List (CInputCoin H)) (nValueRet : Int) :
    Prop where
  offered : ∀ c ∈ coins, ∃ o ∈ vCoins, o.outpoint = c.outpoint ∧ o.txout = c.txout
  distinct : Distinct coins
  value : total CInputCoin.nValue coins = nValueRet
  reaches : nTargetValue ≤ nValueRet

variable {E}

variable {vCoins : List (COutput H)}
  {preset : List (CInputCoin H) × Int} {f : COutput H → CInputCoin H} {nTargetValue : Int}

theorem distinct_map (h : (vCoins.map (·.outpoint)).Nodup)
    (p : COutput H → Bool) (hf : ∀ o, (f o).outpoint = o.outpoint) : Distinct ((vCoins.filter p).map f) := by
  unfold Distinct
  rw [map_map, show ((·.outpoint) ∘ f) = (·.outpoint) from funext hf]
  exact h.sublist (filter_sublist.map _)

theorem offered_of_map {p : COutput H → Bool}
    (hf : ∀ o, (f o).outpoint = o.outpoint ∧ (f o).txout = o.txout) {c : CInputCoin H}
    (hc : c ∈ (vCoins.filter p).map f) : ∃ o ∈ vCoins, o.outpoint = c.outpoint ∧ o.txout = c.txout := by
  obtain ⟨o, ho, rfl⟩ := mem_map.1 hc
  exact ⟨o, (mem_filter.1 ho).1, (hf o).1.symm, (hf o).2.symm⟩

theorem COutput.inputFee_nonneg (o : COutput H) (rate : FeeRate) : 0 ≤ o.inputFee rate := by
  unfold COutput.inputFee
  split
  · exact Int.le_refl 0
  · exact rate.nonneg _

theorem COutput.effectiveValue_le (o : COutput H) (effectiveFee longTermFeerate : FeeRate) :
    (o.pricedCoin effectiveFee longTermFeerate).effectiveValue ≤
      (o.pricedCoin effectiveFee longTermFeerate).nValue := by
  have hfee := o.inputFee_nonneg effectiveFee
  show o.txout.nValue - o.inputFee effectiveFee ≤ o.txout.nValue
  omega

theorem selectCoinsMinConf_spec (R : CoinChoices H) (filter : CoinEligibilityFilter)
    (params : CoinSelectionParams) (hdistinct : (vCoins.map (·.outpoint)).Nodup) (htarget : 0 < nTargetValue) :
    ∃ r, selectCoinsMinConf E R nTargetValue filter vCoins params = .ok (r, params.useBnb) ∧
      (r.ret → Chosen vCoins nTargetValue r.setCoinsRet r.nValueRet) := by
  unfold selectCoinsMinConf
  dsimp only
  split
  · next hbnb =>
    -- the effective values are in the range, and the coins are worth at least as much
    have hpool : Distinct (((vCoins.filter (outputEligibleForSpending E filter)).map
        fun o => o.pricedCoin params.effectiveFee E.longTermFeerate).filter
          fun coin => decide (0 < coin.effectiveValue)) :=
      (distinct_map hdistinct _ fun _ => rfl).sublist filter_sublist
    obtain ⟨r, hr, hsound, -⟩ := selectCoinsBnB_returns R.sort
      (E.discardRate.getFee params.changeSpendSize + params.effectiveFee.getFee params.changeOutputSize) 0
      hpool (fun c hc => of_decide_eq_true (mem_filter.1 hc).2) htarget
      (params.effectiveFee.nonneg params.txNoinputsSize)
    refine ⟨⟨r.ret, r.outSet, r.valueRet⟩, by rw [hr, hbnb]; rfl, fun hret => ?_⟩
    obtain ⟨hsub, hd, hin, hvalue⟩ := hsound hret
    have hfrom := fun c hc => (mem_filter.1 (hsub c hc)).1
    refine ⟨fun c hc => offered_of_map (fun _ => ⟨rfl, rfl⟩) (hfrom c hc), hd, hvalue.symm, ?_⟩
    have hle : total effectiveValue r.outSet ≤ total nValue r.outSet := by
      refine total_le_total fun c hc => ?_
      obtain ⟨o, -, rfl⟩ := mem_map.1 (hfrom c hc)
      exact o.effectiveValue_le _ _
    have hnonneg := params.effectiveFee.nonneg params.txNoinputsSize
    have hlow := hin.1
    show nTargetValue ≤ r.valueRet
    rw [hvalue]
    omega
  · next hknapsack =>
    refine ⟨_, by rw [Bool.eq_false_of_not_eq_true hknapsack], fun hret => ?_⟩
    have hpool : Distinct ((vCoins.filter (outputEligibleForSpending E filter)).map COutput.coin) :=
      distinct_map hdistinct _ fun _ => rfl
    rcases knapsackSolver_cases R nTargetValue hpool with hsound | ⟨hfalse, -⟩
    · exact ⟨fun c hc => offered_of_map (fun _ => ⟨rfl, rfl⟩) (hsound.subset c hc), hsound.distinct, hsound.value,
        hsound.reaches⟩
    · rw [hfalse] at hret
      cases hret

theorem tryFilters_spec (pass : Nat) (params : CoinSelectionParams)
    (hdistinct : (vCoins.map (·.outpoint)).Nodup) (htarget : 0 < nTargetValue) (filters : List CoinEligibilityFilter)
    (i : Nat) (last : Selection H × Bool) (hne : filters ≠ [] ∨ last.2 = params.useBnb)
    (hlast : last.1.ret → Chosen vCoins nTargetValue last.1.setCoinsRet last.1.nValueRet) :
    ∃ r, tryFilters E pass nTargetValue vCoins params i filters last = .ok (r, params.useBnb) ∧
      (r.ret → Chosen vCoins nTargetValue r.setCoinsRet r.nValueRet) := by
  induction filters generalizing i last with
  | nil =>
    refine ⟨last.1, ?_, hlast⟩
    rw [← hne.resolve_left fun hno => hno rfl]
    rfl
  | cons filter filters ih =>
    obtain ⟨r, hr, hchosen⟩ := selectCoinsMinConf_spec (E := E) (E.choices pass i) filter params hdistinct htarget
    unfold tryFilters
    rw [hr, ok_bind]
    dsimp only
    split
    · exact ⟨r, rfl, hchosen⟩
    · exact ih (i + 1) (r, params.useBnb) (.inr rfl) hchosen

theorem foldlM_addPreset (l : List (COutPoint H)) {r : List (CInputCoin H) × Int}
    (hnodup : (r.1.map (·.outpoint) ++ l).Nodup) (hvalue : total nValue r.1 = r.2)
    (h : l.foldlM (addPreset E) r = some preset) : Distinct preset.1 ∧ total nValue preset.1 = preset.2 := by
  induction l generalizing r with
  | nil =>
    obtain rfl : r = preset := Option.some.inj h
    exact ⟨by simpa [Distinct] using hnodup, hvalue⟩
  | cons p l ih =>
    rw [foldlM_cons] at h
    obtain ⟨r', hr', h⟩ := Option.bind_eq_some_iff.1 h
    unfold addPreset at hr'
    split at hr'
    · cases hr'
    · split at hr'
      · cases hr'
      · next txout htxout =>
        obtain rfl := Option.some.inj hr'
        have hfold : takeCoin r (.of p txout) = (r.1 ++ [of p txout], r.2 + txout.nValue) := by
          have hd : Distinct (r.1 ++ [of p txout]) := by
            unfold Distinct
            rw [map_append]
            exact hnodup.sublist (List.Sublist.append_left (by simp [of]) _)
          have htake := foldl_takeCoin r.2 hd
          simpa [of, nValue] using htake
        rw [hfold] at h
        refine ih ?_ ?_ h
        · simpa [of] using hnodup
        · rw [total_append, hvalue]
          simp [of, nValue]

theorem preset_of_unselected {control : CCoinControl H} (hsel : control.hasSelected = false)
    (h : control.setSelected.foldlM (addPreset E) ([], 0) = some preset) :
    preset = ([], 0) := by
  have hnil : control.setSelected = [] := by
    unfold CCoinControl.hasSelected at hsel
    rw [decide_eq_false_iff_not] at hsel
    exact length_eq_zero_iff.1 (by omega)
  rw [hnil] at h
  exact (Option.some.inj h).symm

theorem foldl_coinInsert {s l : List (CInputCoin H)} (h : Distinct (s ++ l)) : l.foldl coinInsert s = s ++ l := by
  have hfst : ∀ (l s : List (CInputCoin H)) (v : Int), (l.foldl takeCoin (s, v)).1 = l.foldl coinInsert s := by
    intro l
    induction l with
    | nil => exact fun s v => rfl
    | cons c l ih => exact fun s v => ih (coinInsert s c) (v + c.nValue)
  rw [← hfst l s 0, foldl_takeCoin 0 h]

theorem withPresets_total {rest value : Int} {coins : List (CInputCoin H)} (hpreset : Distinct preset.1)
    (hvalue : total nValue preset.1 = preset.2)
    (hother : ∀ o ∈ vCoins, o.outpoint ∉ preset.1.map (·.outpoint)) (h : Chosen vCoins rest coins value) :
    total nValue (preset.1.foldl coinInsert coins) = value + preset.2 := by
  have hd : Distinct (coins ++ preset.1) := by
    unfold Distinct
    rw [map_append, nodup_append']
    refine ⟨h.distinct, hpreset, fun p hp hp' => ?_⟩
    obtain ⟨c, hc, rfl⟩ := mem_map.1 hp
    obtain ⟨o, ho, hoc, -⟩ := h.offered c hc
    exact hother o ho (hoc ▸ hp')
  rw [foldl_coinInsert hd, total_append, h.value, hvalue]

structure SelectResult.Sound (nTargetValue : Int) (useBnb : Bool) (r : SelectResult H) : Prop where
  value : r.ret = true → total CInputCoin.nValue r.setCoinsRet = r.nValueRet
  reaches : r.ret = true → nTargetValue ≤ r.nValueRet
  unwritten : r.bnbUsed = none → r.ret = true ∧ r.nValueRet = 0
  bnb : r.bnbUsed = some true → useBnb = true

theorem selectCoins_spec (pass : Nat) (avail : AvailableCoins H) (nTargetValue : Int) (control : CCoinControl H)
    (params : CoinSelectionParams) :
    ∃ r, selectCoins E pass avail.coins nTargetValue control params = .ok r ∧ r.Sound nTargetValue params.useBnb := by
  unfold selectCoins
  split
  · -- every coin that the user selected is taken
    refine ⟨_, rfl, fun _ => ?_, fun hret => of_decide_eq_true hret, fun hno => by (cases hno), fun hno => by cases hno⟩
    have hd : Distinct ((avail.coins.filter fun out => out.fSpendable || E.willprovideprivatekeylater).map
        COutput.coin) := distinct_map avail.distinct _ fun _ => rfl
    rw [foldl_takeCoin 0 (by simpa using hd), nil_append, Int.zero_add]
  · dsimp only
    split
    · exact ⟨_, rfl, fun hno => by (cases hno), fun hno => by (cases hno), fun hno => by (cases hno),
        fun hno => by cases hno⟩
    · next preset hfold =>
      obtain ⟨hpreset, hvalue⟩ := foldlM_addPreset control.setSelected (by simpa using control.nodup) rfl hfold
      have hother : ∀ o ∈ avail.coins.filter fun out => decide (out.outpoint ∉ preset.1.map (·.outpoint)),
          o.outpoint ∉ preset.1.map (·.outpoint) := fun o ho => of_decide_eq_true (mem_filter.1 ho).2
      split
      · next hreach =>
        have hempty : Chosen (avail.coins.filter fun out => decide (out.outpoint ∉ preset.1.map (·.outpoint))) 0 [] 0 :=
          ⟨fun c hc => by (cases hc), nodup_nil, rfl, Int.le_refl 0⟩
        refine ⟨_, rfl, fun _ => withPresets_total hpreset hvalue hother hempty, fun _ => ?_, fun hnone => ?_,
          fun hno => ?_⟩
        · show nTargetValue ≤ 0 + preset.2
          omega
        · -- nothing was preset
          refine ⟨rfl, ?_⟩
          show 0 + preset.2 = 0
          by_cases hsel : control.hasSelected = true
          · rw [withPresets, if_pos hsel] at hnone
            cases hnone
          · rw [preset_of_unselected (Bool.eq_false_of_not_eq_true hsel) hfold]
            rfl
        · unfold withPresets at hno
          dsimp only at hno
          split at hno <;> cases hno
      · next hlack =>
        obtain ⟨r, hr, hchosen⟩ := tryFilters_spec (E := E) pass
          { params with useBnb := !control.hasSelected && params.useBnb }
          (avail.distinct.sublist (filter_sublist.map _)) (show 0 < nTargetValue - preset.2 by omega)
          E.filters 0 (⟨false, [], 0⟩, false) (.inl (by simp [SelectEnv.filters])) (fun hno => by cases hno)
        rw [hr, ok_bind]
        refine ⟨_, rfl, fun hret => withPresets_total hpreset hvalue hother (hchosen hret), fun hret => ?_,
          fun hno => by (cases hno), fun hbnb => ?_⟩
        · have hreach := (hchosen hret).reaches
          show nTargetValue ≤ r.nValueRet + preset.2
          omega
        · exact (Bool.and_eq_true_iff.1 (Option.some.inj hbnb)).2

end BitCash
