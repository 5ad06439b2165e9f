import BitCash.Wallet.CoinSelection

/-!
# Coin selection by branch and bound

`SelectCoinsBnB` looks for coins whose effective values exceed the target by no more than the cost of a change
output.
-/

set_option linter.unusedSectionVars false

variable {selection : List Bool}

namespace BitCash
open Subset List CInputCoin Nat Bool

variable {H : Type} [DecidableEq H] {v : List Bool} {n : Nat}

def TOTAL_TRIES : Nat := 100000

/-! ## the code -/

def poolAt (utxoPool : List (CInputCoin H)) (i : Nat) : Res (CInputCoin H) :=
  match utxoPool[i]? with
  | some utxo => .ok utxo
  | none => .error (.throws "vector::_M_range_check")

def CInputCoin.waste (c : CInputCoin H) : Int := c.fee - c.longTermFee

structure BnB where
  currSelection : List Bool
  currValue : Int
  currAvailableValue : Int
  currWaste : Int
  bestSelection : List Bool
  bestWaste : Int

def resized (n : Nat) (selection : List Bool) : List Bool :=
  selection.reverse.take n ++ List.replicate (n - selection.length) false

def BnB.wasteful (utxoPool : List (CInputCoin H)) (s : BnB) : Res Bool :=
  if s.bestWaste < s.currWaste then (poolAt utxoPool 0).map fun utxo => decide (0 < utxo.waste)
  else .ok false

def BnB.record (n : Nat) (actualTarget : Int) (s : BnB) : BnB :=
  if s.currWaste + (s.currValue - actualTarget) ≤ s.bestWaste then
    { s with
      bestSelection := resized n s.currSelection
      bestWaste := s.currWaste + (s.currValue - actualTarget) }
  else s

def BnB.judge (utxoPool : List (CInputCoin H)) (actualTarget costOfChange : Int) (s : BnB) : Res (Bool × BnB) :=
  if s.currValue + s.currAvailableValue < actualTarget ∨ actualTarget + costOfChange < s.currValue then
    .ok (true, s)
  else
    (s.wasteful utxoPool).map fun wasteful =>
      if wasteful then (true, s)
      else if actualTarget ≤ s.currValue then (true, s.record utxoPool.length actualTarget)
      else (false, s)

def walkBack (utxoPool : List (CInputCoin H)) : List Bool → Int → Res (List Bool × Int)
  | false :: selection, available => do
    let utxo ← poolAt utxoPool selection.length
    walkBack utxoPool selection (available + utxo.effectiveValue)
  | selection, available => .ok (selection, available)

def BnB.backtrack (utxoPool : List (CInputCoin H)) (s : BnB) : Res (Bool × BnB) := do
  let (selection, available) ← walkBack utxoPool s.currSelection s.currAvailableValue
  match selection with
  | [] => .ok (true, { s with currSelection := [], currAvailableValue := available })
  | _ :: selection =>
    -- the coin was included in earlier rounds, it is now omitted
    let utxo ← poolAt utxoPool selection.length
    .ok (false, { s with
      currSelection := false :: selection
      currValue := s.currValue - utxo.effectiveValue
      currAvailableValue := available
      currWaste := s.currWaste - utxo.waste })

def sameAsOmitted (utxoPool : List (CInputCoin H)) (selection : List Bool) (utxo : CInputCoin H) : Res Bool :=
  match selection with
  | false :: selection => (poolAt utxoPool selection.length).map fun prev =>
      decide (utxo.effectiveValue = prev.effectiveValue) && decide (utxo.fee = prev.fee)
  | _ => .ok false

def BnB.forward (utxoPool : List (CInputCoin H)) (s : BnB) : Res BnB := do
  let utxo ← poolAt utxoPool s.currSelection.length
  let same ← sameAsOmitted utxoPool s.currSelection utxo
  let available := s.currAvailableValue - utxo.effectiveValue
  if same then
    .ok { s with currSelection := false :: s.currSelection, currAvailableValue := available }
  else
    .ok { s with
      currSelection := true :: s.currSelection
      currValue := s.currValue + utxo.effectiveValue
      currAvailableValue := available
      currWaste := s.currWaste + utxo.waste }

def BnB.step (utxoPool : List (CInputCoin H)) (actualTarget costOfChange : Int) (s : BnB) : Res (Bool × BnB) := do
  let (back, s) ← s.judge utxoPool actualTarget costOfChange
  if back then s.backtrack utxoPool else (s.forward utxoPool).map fun s => (false, s)

def search (utxoPool : List (CInputCoin H)) (actualTarget costOfChange : Int) : Nat → BnB → Res (Bool × BnB)
  | 0, s => .ok (false, s)
  | tries + 1, s => do
    let (ended, s) ← s.step utxoPool actualTarget costOfChange
    if ended then .ok (true, s) else search utxoPool actualTarget costOfChange tries s

def outputs (utxoPool : List (CInputCoin H)) :
    Nat → List Bool → List (CInputCoin H) × Int → Res (List (CInputCoin H) × Int)
  | _, [], r => .ok r
  | i, true :: best, r => do
    let utxo ← poolAt utxoPool i
    outputs utxoPool (i + 1) best (takeCoin r utxo)
  | i, false :: best, r => outputs utxoPool (i + 1) best r

def availableValue : List (CInputCoin H) → Res Int
  | [] => .ok 0
  | utxo :: pool => do
    if 0 < utxo.effectiveValue then
      let rest ← availableValue pool
      .ok (utxo.effectiveValue + rest)
    else .error (.fault .assertionFailed)

structure BnBResult (H : Type) where
  ret : Bool
  outSet : List (CInputCoin H)
  valueRet : Int
  finished : Bool

def selectCoinsBnB (sort : CoinSort H) (utxoPool : List (CInputCoin H)) (targetValue costOfChange : Int)
    (valueRet : Int) (notInputFees : Int) : Res (BnBResult H) := do
  let actualTarget := notInputFees + targetValue
  let available ← availableValue utxoPool
  if available < actualTarget then .ok ⟨false, [], valueRet, true⟩
  else
    let utxoPool := sort.run utxoPool
    let (finished, s) ← search utxoPool actualTarget costOfChange TOTAL_TRIES ⟨[], 0, available, 0, [], MAX_MONEY⟩
    if s.bestSelection = [] then .ok ⟨false, [], valueRet, finished⟩
    else do
      let (outSet, valueRet) ← outputs utxoPool 0 s.bestSelection ([], 0)
      .ok ⟨true, outSet, valueRet, finished⟩

/-! ## what holds in every round -/

def InRange (actualTarget costOfChange : Int) (coins : List (CInputCoin H)) : Prop :=
  actualTarget ≤ total CInputCoin.effectiveValue coins ∧
    total CInputCoin.effectiveValue coins ≤ actualTarget + costOfChange

def WastesBelow (actualTarget costOfChange : Int) (pool : List (CInputCoin H)) : Prop :=
  ∀ c : List (CInputCoin H), c.Subperm pool → total CInputCoin.waste c ≤ MAX_MONEY ∧
    (InRange actualTarget costOfChange c →
      total CInputCoin.waste c + (total CInputCoin.effectiveValue c - actualTarget) ≤ MAX_MONEY)

/-- the running sums belong to the flags; the best selection is in the range; while there is none, nothing in
the range has been passed over, unless a waste was above `MAX_MONEY` -/
structure BnBInv (pool : List (CInputCoin H)) (actualTarget costOfChange : Int) (s : BnB) : Prop where
  length : s.currSelection.length ≤ pool.length
  value : s.currValue = total CInputCoin.effectiveValue (pick pool s.currSelection.reverse)
  available : s.currAvailableValue = total CInputCoin.effectiveValue (pool.drop s.currSelection.length)
  waste : s.currWaste = total CInputCoin.waste (pick pool s.currSelection.reverse)
  noBest : s.bestSelection = [] → s.bestWaste = MAX_MONEY
  best : s.bestSelection ≠ [] →
    s.bestSelection.length = pool.length ∧ InRange actualTarget costOfChange (pick pool s.bestSelection)
  ahead : WastesBelow actualTarget costOfChange pool → s.bestSelection = [] → ∀ v, v.length = pool.length →
    InRange actualTarget costOfChange (pick pool v) → Ahead s.currSelection.reverse v

section
variable {pool : List (CInputCoin H)} {actualTarget costOfChange : Int} {s : BnB}

theorem poolAt_ok {i : Nat} (h : i < pool.length) : ∃ c, pool[i]? = some c ∧ poolAt pool i = .ok c := by
  refine ⟨pool[i], getElem?_eq_getElem h, ?_⟩
  unfold poolAt
  rw [getElem?_eq_getElem h]

variable (h : BnBInv pool actualTarget costOfChange s) (hpos : ∀ c ∈ pool, 0 < c.effectiveValue)

include h hpos in
theorem BnBInv.below (hv : s.currSelection.reverse <+: v) :
    s.currValue ≤ total effectiveValue (pick pool v) ∧
      total effectiveValue (pick pool v) ≤ s.currValue + s.currAvailableValue := by
  obtain ⟨r, rfl⟩ := hv
  have hdrop : ∀ c ∈ pool.drop s.currSelection.length, 0 ≤ c.effectiveValue := fun c hc =>
    (hpos c (drop_subset _ _ hc)).le
  have hsub := pick_sublist (pool.drop s.currSelection.length) r
  have hlow := total_nonneg fun c hc => hdrop c (hsub.subset hc)
  have hhigh := total_le_of_sublist hsub hdrop
  rw [pick_append, length_reverse, total_append, h.value, h.available]
  omega

theorem length_resized (h : selection.length ≤ n) : (resized n selection).length = n := by
  have htake : selection.reverse.take n = selection.reverse := take_of_length_le (by rw [length_reverse]; exact h)
  unfold resized
  rw [htake, length_append, length_reverse, length_replicate]
  exact Nat.add_sub_cancel' h

theorem pick_resized (h : selection.length ≤ n) : pick pool (resized n selection) = pick pool selection.reverse := by
  have htake : selection.reverse.take n = selection.reverse := take_of_length_le (by rw [length_reverse]; exact h)
  unfold resized
  rw [htake, pick_append_false]

include h in
theorem BnBInv.record (hin : InRange actualTarget costOfChange (pick pool s.currSelection.reverse))
    (hne : 0 < pool.length) :
    BnBInv pool actualTarget costOfChange (s.record pool.length actualTarget) ∧
      (s.currWaste + (s.currValue - actualTarget) ≤ MAX_MONEY →
        (s.record pool.length actualTarget).bestSelection ≠ []) := by
  unfold BnB.record
  split
  · have hnonempty : resized pool.length s.currSelection ≠ [] :=
      ne_nil_of_length_pos (by rw [length_resized h.length]; exact hne)
    refine ⟨⟨h.length, h.value, h.available, h.waste, fun hno => absurd hno hnonempty, fun _ => ?_,
      fun _ hno => absurd hno hnonempty⟩, fun _ => hnonempty⟩
    refine ⟨length_resized h.length, ?_⟩
    show InRange _ _ (pick pool (resized _ _))
    rw [pick_resized h.length]
    exact hin
  · next hmore =>
    refine ⟨h, fun hsum hnone => hmore ?_⟩
    rw [h.noBest hnone]
    exact hsum

include h hpos in
theorem judge_spec (hne : 0 < pool.length) : ∃ back s', s.judge pool actualTarget costOfChange = .ok (back, s') ∧
      BnBInv pool actualTarget costOfChange s' ∧
      (back → WastesBelow actualTarget costOfChange pool → s'.bestSelection = [] →
        ∀ v, InRange actualTarget costOfChange (pick pool v) → ¬ s'.currSelection.reverse <+: v) ∧
      (back = false → s'.currSelection.length < pool.length) := by
  have hwastes : WastesBelow actualTarget costOfChange pool → s.currWaste ≤ MAX_MONEY ∧
      (InRange actualTarget costOfChange (pick pool s.currSelection.reverse) →
        s.currWaste + (s.currValue - actualTarget) ≤ MAX_MONEY) := by
    intro hwaste
    rw [h.waste, h.value]
    exact hwaste _ (pick_sublist pool s.currSelection.reverse).subperm
  unfold BnB.judge
  split
  · next hout =>
    refine ⟨true, s, rfl, h, fun _ _ _ v hv hpre => ?_, fun hno => by cases hno⟩
    have hbelow := h.below hpos hpre
    unfold InRange at hv
    omega
  · next hout =>
    obtain ⟨first, -, hfirst⟩ := poolAt_ok hne
    have hok : ∃ b, s.wasteful pool = .ok b ∧ (b = true → s.bestWaste < s.currWaste) := by
      unfold BnB.wasteful
      rw [hfirst]
      split
      · next hlt => exact ⟨_, rfl, fun _ => hlt⟩
      · exact ⟨false, rfl, fun hno => by cases hno⟩
    obtain ⟨b, hb, hbwaste⟩ := hok
    rw [hb]
    show ∃ back s', Except.ok (if b = true then _ else _) = _ ∧ _
    split
    · next htrue =>
      -- before there is a best selection no waste is too large
      refine ⟨true, s, rfl, h, fun _ hwaste hnone => ?_, fun hno => by cases hno⟩
      have hlt := hbwaste htrue
      rw [h.noBest hnone] at hlt
      exact absurd (hwastes hwaste).1 (Int.not_le.2 hlt)
    · split
      · next hreach =>
        have hin : InRange actualTarget costOfChange (pick pool s.currSelection.reverse) := by
          unfold InRange
          rw [← h.value]
          omega
        obtain ⟨hrecord, hfound⟩ := h.record hin hne
        refine ⟨true, _, rfl, hrecord, fun _ hwaste hno => ?_, fun hno => by cases hno⟩
        exact absurd hno (hfound ((hwastes hwaste).2 hin))
      · next hreach =>
        refine ⟨false, s, rfl, h, fun hno => by (cases hno), fun _ => ?_⟩
        -- something is available, so there is a next coin
        by_contra hfull
        have hnil : s.currAvailableValue = 0 := by
          rw [h.available, drop_of_length_le (Nat.not_lt.1 hfull), total_nil]
        omega

/-! ## the moves -/

theorem walkBack_spec (selection : List Bool) (hlen : selection.length ≤ pool.length) :
    ∃ n rest, selection = replicate n false ++ rest ∧ rest.head? ≠ some false ∧
      walkBack pool selection (total effectiveValue (pool.drop selection.length)) =
        .ok (rest, total effectiveValue (pool.drop rest.length)) := by
  induction selection with
  | nil => exact ⟨0, [], rfl, by simp, rfl⟩
  | cons b selection ih =>
    cases b with
    | true => exact ⟨0, true :: selection, rfl, by simp, rfl⟩
    | false =>
      rw [length_cons] at hlen
      obtain ⟨n, rest, heq, hhead, hwalk⟩ := ih (le_of_succ_le hlen)
      obtain ⟨utxo, hget, hat⟩ := poolAt_ok (lt_of_succ_le hlen)
      refine ⟨n + 1, rest, by rw [heq]; rfl, hhead, ?_⟩
      have hgive : total effectiveValue (pool.drop (selection.length + 1)) + utxo.effectiveValue =
          total effectiveValue (pool.drop selection.length) := by
        rw [drop_of_getElem hget, total_cons, Int.add_comm]
      unfold walkBack
      rw [hat, length_cons]
      show walkBack pool selection (_ + utxo.effectiveValue) = _
      rw [hgive, hwalk]

include h in
theorem backtrack_spec (hbelow : WastesBelow actualTarget costOfChange pool → s.bestSelection = [] →
      ∀ v, InRange actualTarget costOfChange (pick pool v) → ¬ s.currSelection.reverse <+: v) :
    ∃ ended s', s.backtrack pool = .ok (ended, s') ∧ s'.bestSelection = s.bestSelection ∧
      (ended = false → BnBInv pool actualTarget costOfChange s') ∧
      (ended → WastesBelow actualTarget costOfChange pool → s.bestSelection = [] →
        ∀ v, v.length = pool.length → ¬ InRange actualTarget costOfChange (pick pool v)) := by
  obtain ⟨n, rest, heq, hhead, hwalk⟩ := walkBack_spec s.currSelection h.length
  unfold BnB.backtrack
  rw [h.available, hwalk]
  have hrev : s.currSelection.reverse = rest.reverse ++ replicate n false := by
    rw [heq, reverse_append, reverse_replicate]
  have hlen : rest.length ≤ pool.length := by
    have := h.length
    rw [heq, length_append] at this
    omega
  rcases rest with _ | ⟨_ | _, rest⟩
  · refine ⟨true, _, rfl, rfl, fun hno => by (cases hno), fun _ hwaste hnone v hv hin => ?_⟩
    have hahead := h.ahead hwaste hnone v hv hin
    have hnot := hbelow hwaste hnone v hin
    rw [hrev, reverse_nil, nil_append] at hahead hnot
    exact hahead.finish hnot
  · exact absurd rfl hhead
  · obtain ⟨utxo, hget, hat⟩ := poolAt_ok hlen
    rw [reverse_cons] at hrev
    have hget' : pool[rest.reverse.length]? = some utxo := by rw [length_reverse]; exact hget
    -- the flags with and without the coin
    have hwith : pick pool s.currSelection.reverse = pick pool rest.reverse ++ [utxo] := by
      rw [hrev, pick_append_false, pick_snoc true hget']
      rfl
    have hwithout : pick pool (false :: rest).reverse = pick pool rest.reverse := by
      rw [reverse_cons, pick_snoc false hget']
      exact append_nil _
    have hvalue := h.value
    have hwaste := h.waste
    rw [hwith, total_append, total_cons, total_nil] at hvalue hwaste
    refine ⟨false, { s with
      currSelection := false :: rest
      currValue := s.currValue - utxo.effectiveValue
      currAvailableValue := total effectiveValue (pool.drop (rest.length + 1))
      currWaste := s.currWaste - utxo.waste }, ?_, rfl, fun _ => ?_, fun hno => by cases hno⟩
    · show (poolAt pool rest.length >>= fun utxo => _) = _
      rw [hat]
      rfl
    · refine ⟨hlen, ?_, rfl, ?_, h.noBest, h.best, fun hwaste hnone v hv hin => ?_⟩
      · show s.currValue - utxo.effectiveValue = total _ (pick pool (false :: rest).reverse)
        rw [hwithout]
        omega
      · show s.currWaste - utxo.waste = total _ (pick pool (false :: rest).reverse)
        rw [hwithout]
        omega
      · show Ahead (false :: rest).reverse v
        rw [reverse_cons]
        have hahead := h.ahead hwaste hnone v hv hin
        have hnot := hbelow hwaste hnone v hin
        rw [hrev] at hahead hnot
        exact hahead.retreat hnot

theorem sameAsOmitted_spec (utxo : CInputCoin H) (hlen : selection.length ≤ pool.length) :
    ∃ same, sameAsOmitted pool selection utxo = .ok same ∧
      (same → ∃ rest prev, selection = false :: rest ∧ pool[rest.length]? = some prev ∧
        prev.effectiveValue = utxo.effectiveValue) := by
  rcases selection with _ | ⟨_ | _, selection⟩
  · exact ⟨false, rfl, fun hno => by cases hno⟩
  · obtain ⟨prev, hget, hat⟩ := poolAt_ok (lt_of_succ_le hlen)
    dsimp only [sameAsOmitted]
    rw [hat]
    refine ⟨_, rfl, fun hsame => ⟨selection, prev, rfl, hget, ?_⟩⟩
    rw [and_eq_true, decide_eq_true_eq] at hsame
    exact hsame.1.symm
  · exact ⟨false, rfl, fun hno => by cases hno⟩

include h in
/-- **an equal coin need not be tried again**: with the flags of two equal neighbours exchanged a selection is
worth the same, and that one was passed already -/
theorem BnBInv.not_again (hwaste : WastesBelow actualTarget costOfChange pool) (hnone : s.bestSelection = [])
    {rest : List Bool} {prev utxo : CInputCoin H} (hrest : s.currSelection = false :: rest)
    (hprev : pool[rest.length]? = some prev) (hutxo : pool[rest.length + 1]? = some utxo)
    (hsame : prev.effectiveValue = utxo.effectiveValue) (hv : v.length = pool.length)
    (hin : InRange actualTarget costOfChange (pick pool v)) : ¬ s.currSelection.reverse ++ [true] <+: v := by
  rintro ⟨r, rfl⟩
  rw [hrest, reverse_cons, append_assoc, append_assoc] at hin hv
  have hswap : InRange actualTarget costOfChange (pick pool (rest.reverse ++ true :: false :: r)) := by
    unfold InRange
    rw [total_pick_swap (by rw [length_reverse]; exact hprev) (by rw [length_reverse]; exact hutxo) hsame]
    exact hin
  have hahead := h.ahead hwaste hnone (rest.reverse ++ true :: false :: r) (by simpa using hv) hswap
  rw [hrest, reverse_cons] at hahead
  exact not_ahead_of_set ⟨false :: r, by simp⟩ hahead

include h in
theorem forward_spec (hlen : s.currSelection.length < pool.length) :
    ∃ s', s.forward pool = .ok s' ∧ BnBInv pool actualTarget costOfChange s' := by
  obtain ⟨utxo, hget, hat⟩ := poolAt_ok hlen
  obtain ⟨same, hsame, hequal⟩ := sameAsOmitted_spec utxo h.length
  have hget' : pool[s.currSelection.reverse.length]? = some utxo := by rw [length_reverse]; exact hget
  have havail : s.currAvailableValue - utxo.effectiveValue =
      total effectiveValue (pool.drop (s.currSelection.length + 1)) := by
    rw [h.available, drop_of_getElem hget, total_cons]
    omega
  have hv' : ∀ v : List Bool, v.length = pool.length → s.currSelection.reverse.length < v.length := by
    intro v hv
    rw [length_reverse, hv]
    exact hlen
  unfold BnB.forward
  rw [hat]
  show ∃ s', (sameAsOmitted pool s.currSelection utxo >>= fun same => _) = _ ∧ _
  rw [hsame]
  show ∃ s', (if same = true then _ else _) = _ ∧ _
  split
  · next htrue =>
    obtain ⟨rest, prev, hrest, hprev, hvalue⟩ := hequal htrue
    have hpick : pick pool (false :: s.currSelection).reverse = pick pool s.currSelection.reverse := by
      rw [reverse_cons, pick_snoc false hget']
      exact append_nil _
    refine ⟨_, rfl, hlen, by rw [hpick]; exact h.value, havail, by rw [hpick]; exact h.waste, h.noBest, h.best,
      fun hwaste hnone v hv hin => ?_⟩
    have hutxo : pool[rest.length + 1]? = some utxo := by
      rw [hrest] at hget
      exact hget
    show Ahead (false :: s.currSelection).reverse v
    rw [reverse_cons]
    exact (h.ahead hwaste hnone v hv hin).skip (hv' v hv) (h.not_again hwaste hnone hrest hprev hutxo hvalue hv hin)
  · have hpick : pick pool (true :: s.currSelection).reverse = pick pool s.currSelection.reverse ++ [utxo] := by
      rw [reverse_cons, pick_snoc true hget']
      rfl
    refine ⟨_, rfl, hlen, ?_, havail, ?_, h.noBest, h.best, fun hwaste hnone v hv hin => ?_⟩
    · show s.currValue + utxo.effectiveValue = total _ (pick pool (true :: s.currSelection).reverse)
      rw [hpick, h.value, total_append, total_cons, total_nil, Int.add_zero]
    · show s.currWaste + utxo.waste = total _ (pick pool (true :: s.currSelection).reverse)
      rw [hpick, h.waste, total_append, total_cons, total_nil, Int.add_zero]
    · show Ahead (true :: s.currSelection).reverse v
      rw [reverse_cons]
      exact (h.ahead hwaste hnone v hv hin).take (hv' v hv)

structure Searched (pool : List (CInputCoin H)) (actualTarget costOfChange : Int) (ended : Bool) (s : BnB) : Prop where
  best : s.bestSelection ≠ [] →
    s.bestSelection.length = pool.length ∧ InRange actualTarget costOfChange (pick pool s.bestSelection)
  missed : ended = true → WastesBelow actualTarget costOfChange pool → s.bestSelection = [] →
    ∀ v, v.length = pool.length → ¬ InRange actualTarget costOfChange (pick pool v)

include h hpos in
theorem step_spec (hne : 0 < pool.length) : ∃ ended s', s.step pool actualTarget costOfChange = .ok (ended, s') ∧
      Searched pool actualTarget costOfChange ended s' ∧
      (ended = false → BnBInv pool actualTarget costOfChange s') := by
  obtain ⟨back, s₁, hjudge, hinv, hleave, hstay⟩ := judge_spec h hpos hne
  unfold BnB.step
  rw [hjudge]
  show ∃ ended s', (if back = true then _ else _) = _ ∧ _
  split
  · next hback =>
    obtain ⟨ended, s', hok, hbest, hgo, hover⟩ := backtrack_spec hinv (hleave hback)
    refine ⟨ended, s', hok, ⟨?_, ?_⟩, hgo⟩
    · rw [hbest]
      exact hinv.best
    · rw [hbest]
      exact hover
  · next hforward =>
    obtain ⟨s', hok, hgo⟩ := forward_spec hinv (hstay (eq_false_of_not_eq_true hforward))
    exact ⟨false, s', by rw [hok]; rfl, ⟨hgo.best, fun hno => by cases hno⟩, fun _ => hgo⟩

theorem search_spec (tries : Nat) (h : BnBInv pool actualTarget costOfChange s)
    (hpos : ∀ c ∈ pool, 0 < c.effectiveValue) (hne : 0 < pool.length) :
    ∃ ended s', search pool actualTarget costOfChange tries s = .ok (ended, s') ∧
      Searched pool actualTarget costOfChange ended s' := by
  induction tries generalizing s with
  | zero => exact ⟨false, s, rfl, h.best, fun hno => by cases hno⟩
  | succ tries ih =>
    obtain ⟨ended, s', hok, hsearched, hgo⟩ := step_spec h hpos hne
    unfold search
    rw [hok]
    show ∃ ended' s'', (if ended = true then _ else _) = _ ∧ _
    split
    · next hover => exact ⟨true, s', rfl, hover ▸ hsearched⟩
    · next hover => exact ih (hgo (eq_false_of_not_eq_true hover))

/-! ## the result -/

theorem outputs_eq (best : List Bool) (i : Nat) (r : List (CInputCoin H) × Int)
    (hlen : i + best.length ≤ pool.length) :
    outputs pool i best r = .ok ((pick (pool.drop i) best).foldl takeCoin r) := by
  induction best generalizing i r with
  | nil => rw [pick_nil_right]; rfl
  | cons b best ih =>
    rw [length_cons] at hlen
    obtain ⟨utxo, hget, hat⟩ := poolAt_ok (show i < pool.length by omega)
    rw [drop_of_getElem hget, pick_cons]
    cases b with
    | false => exact ih (i + 1) r (by omega)
    | true =>
      unfold outputs
      rw [hat]
      exact ih (i + 1) (takeCoin r utxo) (by omega)

theorem availableValue_eq (h : ∀ c ∈ pool, 0 < c.effectiveValue) :
    availableValue pool = .ok (total effectiveValue pool) := by
  induction pool with
  | nil => rfl
  | cons utxo pool ih =>
    unfold availableValue
    rw [if_pos (h utxo mem_cons_self), ih fun c hc => h c (mem_cons_of_mem utxo hc)]
    rw [total_cons]
    rfl

theorem WastesBelow.perm {pool' : List (CInputCoin H)} (h : WastesBelow actualTarget costOfChange pool)
    (hperm : pool'.Perm pool) : WastesBelow actualTarget costOfChange pool' :=
  fun c hc => h c (hc.trans hperm.subperm)

end

theorem selectCoinsBnB_returns (sort : CoinSort H) {utxoPool : List (CInputCoin H)} {targetValue notInputFees : Int}
    (costOfChange valueRet : Int) (hdistinct : Distinct utxoPool) (hpos : ∀ c ∈ utxoPool, 0 < c.effectiveValue)
    (htarget : 0 < targetValue) (hfees : 0 ≤ notInputFees) :
    ∃ r, selectCoinsBnB sort utxoPool targetValue costOfChange valueRet notInputFees = .ok r ∧
      (r.ret → (∀ c ∈ r.outSet, c ∈ utxoPool) ∧ Distinct r.outSet ∧
        InRange (notInputFees + targetValue) costOfChange r.outSet ∧ r.valueRet = total nValue r.outSet) ∧
      (r.ret = false → r.finished → WastesBelow (notInputFees + targetValue) costOfChange utxoPool →
        ∀ c : List (CInputCoin H), c.Subperm utxoPool → ¬ InRange (notInputFees + targetValue) costOfChange c) := by
  unfold selectCoinsBnB
  rw [availableValue_eq hpos]
  show ∃ r, (if total _ utxoPool < notInputFees + targetValue then _ else _) = _ ∧ _
  split
  · next hlack =>
    refine ⟨_, rfl, fun hno => by (cases hno), fun _ _ _ c hc hin => ?_⟩
    obtain ⟨l, hl, hsub⟩ := hc
    have hle := total_le_of_sublist hsub fun c hc => (hpos c hc).le
    rw [total_perm hl] at hle
    exact absurd hin.1 (by omega)
  · next henough =>
    have hperm := sort.perm utxoPool
    have hpos' : ∀ c ∈ sort.run utxoPool, 0 < c.effectiveValue := fun c hc => hpos c (hperm.subset hc)
    have hne : 0 < (sort.run utxoPool).length := by
      rw [hperm.length_eq]
      refine length_pos_iff.2 fun hnil => ?_
      rw [hnil, total_nil] at henough
      omega
    have hstart : BnBInv (sort.run utxoPool) (notInputFees + targetValue) costOfChange
        ⟨[], 0, total effectiveValue utxoPool, 0, [], MAX_MONEY⟩ :=
      ⟨Nat.zero_le _, by simp, (total_perm hperm).symm, by simp, fun _ => rfl, fun hno => absurd rfl hno,
        fun _ _ v _ _ => Ahead.start v⟩
    obtain ⟨ended, s, hsearch, hsearched⟩ := search_spec TOTAL_TRIES hstart hpos' hne
    show ∃ r, (search _ _ _ _ _ >>= fun r => _) = _ ∧ _
    rw [hsearch]
    show ∃ r, (if s.bestSelection = [] then _ else _) = _ ∧ _
    split
    · next hnone =>
      refine ⟨_, rfl, fun hno => by (cases hno), fun _ hfinished hwaste c hc hin => ?_⟩
      obtain ⟨l, hl, hsub⟩ := hc.trans hperm.symm.subperm
      obtain ⟨v, hv, hpick⟩ := exists_pick hsub
      refine hsearched.missed hfinished (hwaste.perm hperm) hnone v hv ?_
      unfold InRange
      rw [hpick, total_perm hl]
      exact hin
    · next hsome =>
      obtain ⟨hlen, hin⟩ := hsearched.best hsome
      have hsub := pick_sublist (sort.run utxoPool) s.bestSelection
      have hd : Distinct (pick (sort.run utxoPool) s.bestSelection) := (hdistinct.perm hperm).sublist hsub
      show ∃ r, (outputs _ _ _ _ >>= fun r => _) = _ ∧ _
      rw [outputs_eq s.bestSelection 0 ([], 0) (by omega), drop_zero,
        foldl_takeCoin 0 (by simpa using hd), nil_append, Int.zero_add]
      exact ⟨_, rfl, fun _ => ⟨fun c hc => hperm.subset (hsub.subset hc), hd, hin, rfl⟩, fun hno => by cases hno⟩

/-- **the branch-and-bound selection is sound and complete**: it never indexes outside the pool; what it returns
is a set of coins of the pool in the range, with their value; and when it returns nothing although the tries
sufficed, no coins of the pool are in the range -/
theorem selectCoinsBnB_exact (sort : CoinSort H) (utxoPool : List (CInputCoin H))
    (targetValue costOfChange valueRet notInputFees : Int) (hdistinct : Distinct utxoPool)
    (hpos : ∀ c ∈ utxoPool, 0 < c.effectiveValue) (htarget : 0 < targetValue) (hfees : 0 ≤ notInputFees)
    (hwaste : WastesBelow (notInputFees + targetValue) costOfChange utxoPool) :
    ∃ r, selectCoinsBnB sort utxoPool targetValue costOfChange valueRet notInputFees = .ok r ∧
      (r.ret = true → (∀ c ∈ r.outSet, c ∈ utxoPool) ∧ Distinct r.outSet ∧
        InRange (notInputFees + targetValue) costOfChange r.outSet ∧ r.valueRet = total CInputCoin.nValue r.outSet) ∧
      (r.ret = false → r.finished = true → ∀ c : List (CInputCoin H), c.Subperm utxoPool →
        ¬ InRange (notInputFees + targetValue) costOfChange c) := by
  obtain ⟨r, hr, hsound, hcomplete⟩ := selectCoinsBnB_returns sort costOfChange valueRet hdistinct hpos htarget hfees
  exact ⟨r, hr, hsound, fun hret hfinished => hcomplete hret hfinished hwaste⟩

theorem WastesBelow.of_no_fees {pool : List (CInputCoin H)} {actualTarget costOfChange : Int}
    (hfees : ∀ c ∈ pool, c.waste = 0) (hpos : ∀ c ∈ pool, 0 < c.effectiveValue)
    (hsum : total effectiveValue pool - actualTarget ≤ MAX_MONEY) :
    WastesBelow actualTarget costOfChange pool := by
  intro c hc
  have hnone : total waste c = 0 := by
    refine sum_eq_zero fun x hx => ?_
    obtain ⟨coin, hcoin, rfl⟩ := mem_map.1 hx
    exact hfees coin (hc.subset hcoin)
  obtain ⟨l, hl, hsub⟩ := hc
  have hle := total_le_of_sublist hsub fun c hc => (hpos c hc).le
  rw [total_perm hl] at hle
  rw [hnone]
  exact ⟨by decide, fun _ => by omega⟩

theorem selectCoinsBnB_of_two :
    ∃ r, selectCoinsBnB (stableSort Nat) [sampleCoin 1 3, sampleCoin 2 5] 7 1 0 0 = .ok r ∧
      (r.ret = true → (∀ c ∈ r.outSet, c ∈ [sampleCoin 1 3, sampleCoin 2 5]) ∧ Distinct r.outSet ∧
        InRange (0 + 7) 1 r.outSet ∧ r.valueRet = total CInputCoin.nValue r.outSet) ∧
      (r.ret = false → r.finished = true → ∀ c : List (CInputCoin Nat),
        c.Subperm [sampleCoin 1 3, sampleCoin 2 5] → ¬ InRange (0 + 7) 1 c) :=
  selectCoinsBnB_exact (stableSort Nat) [sampleCoin 1 3, sampleCoin 2 5] 7 1 0 0 (by unfold Distinct; decide)
    (by decide) (by decide) (by decide) (.of_no_fees (by decide) (by decide) (by decide))

end BitCash
